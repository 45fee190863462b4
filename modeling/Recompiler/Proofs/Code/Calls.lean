import Recompiler.Proofs.Code.Guarded

/-!
# Calls for interpretation

Generated code leaves a guest instruction to the interpreter by calling a helper. The calls on the way
through symbolic code, from first to last, with the guest that the interpreter gets to see.

* `Call`, `HostInstruction.call?`: a call, and the call that an instruction makes.
* `Point.Leads`: the way from one point to another, with the calls on it.
* `Point.Leads.extend`: what stands behind the code does not matter.
* `Point.Leads.of_dealings`: code whose dealings are no such calls makes none.
-/

namespace Recompiler

variable {β : Type}

/-- A call that leaves a guest instruction to the interpreter. -/
structure Call (β : Type) where
  /-- The word of the instruction. -/
  word : UInt32
  /-- The guest that the interpreter gets to see. -/
  env : Environment β

/-- The call that a host instruction makes. -/
def HostInstruction.call? (m : HostMachine β) : HostInstruction → Option (Call β)
  | .call target =>
    if m.get target = Helper.interpret.address then some ⟨m.getWord .rsi, m.env⟩ else none
  | _ => none

namespace HostInstruction

variable {i : HostInstruction} {m : HostMachine β}

/-- An instruction with another dealing than the helper of the interpreter makes no call. -/
theorem call?_eq_none (h : i.dealing? m ≠ some (.call Helper.interpret.address)) :
    i.call? m = none := by
  cases i with
  | call target =>
    refine if_neg fun hget => h ?_
    rw [dealing?, hget]
  | _ => rfl

end HostInstruction

namespace Point

/-- The call that is about to be made at a point. -/
def call? : Point β → Option (Call β)
  | ⟨none, .instruction i :: _, m⟩ => i.call? m
  | _ => none

theorem call?_eq_none {p : Point β} (h : p.dealing? ≠ some (.call Helper.interpret.address)) :
    p.call? = none := by
  obtain ⟨label?, items, m⟩ := p
  cases label? with
  | some label => cases items <;> rfl
  | none =>
    cases items with
    | nil => rfl
    | cons item rest =>
      cases item with
      | instruction i => exact HostInstruction.call?_eq_none h
      | _ => rfl

variable [Bus β]

/-- Control goes from one point to another by instructions that can be encoded, with these calls on
the way. -/
inductive Leads : Point β → List (Call β) → Point β → Prop
  | refl (p : Point β) : Leads p [] p
  | step {p q r : Point β} {cs : List (Call β)} :
    p.Valid → p.next? = some q → Leads q cs r → Leads p (p.call?.toList ++ cs) r

namespace Leads

variable {p q r : Point β} {cs cs' : List (Call β)} {label? label?' : Option Nat}
  {items items' : List Item} {m n : HostMachine β}

theorem trans (h : p.Leads cs q) (h' : q.Leads cs' r) : p.Leads (cs ++ cs') r := by
  induction h with
  | refl p => exact h'
  | step hvalid hnext _ ih =>
    rw [List.append_assoc]
    exact .step hvalid hnext (ih h')

theorem one (hvalid : p.Valid) (hnext : p.next? = some q) : p.Leads p.call?.toList q := by
  have h := step hvalid hnext (refl q)
  rwa [List.append_nil] at h

/-- What stands behind the code does not matter to the way through it. -/
theorem extend (h : Leads ⟨label?, items, m⟩ cs ⟨label?', items', n⟩) (rest : List Item) :
    Leads ⟨label?, items ++ rest, m⟩ cs ⟨label?', items' ++ rest, n⟩ := by
  generalize hp : (⟨label?, items, m⟩ : Point β) = p at h
  generalize hq : (⟨label?', items', n⟩ : Point β) = q at h
  induction h generalizing label? items m with
  | refl p =>
    cases hp.trans hq.symm
    exact .refl _
  | @step p r _ cs hvalid hnext _ ih =>
    subst hp
    cases items with
    | nil => cases label? <;> cases hnext
    | cons item items =>
      rw [next?_cons] at hnext
      obtain ⟨⟨label?₁, m₁⟩, hadvance, rfl⟩ := Option.map_eq_some_iff.1 hnext
      have hnext' : next? ⟨label?, item :: (items ++ rest), m⟩ =
          some ⟨label?₁, items ++ rest, m₁⟩ := by
        rw [next?_cons, hadvance]
        rfl
      have hvalid' : Valid ⟨label?, item :: (items ++ rest), m⟩ := by
        cases label? <;> cases item <;> exact hvalid
      have hcall : call? ⟨label?, item :: (items ++ rest), m⟩ =
          call? ⟨label?, item :: items, m⟩ := by
        cases label? <;> cases item <;> rfl
      rw [← hcall]
      exact .step hvalid' hnext' (ih rfl hq)

/-- The way on through more code. -/
theorem append {label?'' : Option Nat} {more : List Item} {k : HostMachine β}
    (h : Leads ⟨label?, items, m⟩ cs ⟨label?', [], n⟩)
    (h' : Leads ⟨label?', more, n⟩ cs' ⟨label?'', items', k⟩) :
    Leads ⟨label?, items ++ more, m⟩ (cs ++ cs') ⟨label?'', items', k⟩ :=
  (h.extend more).trans h'

/-- Code in which a label is not bound is passed over on the way to the label. -/
theorem search {label : Nat} (h : label ∉ bindLabels items) (m : HostMachine β) :
    Leads ⟨some label, items, m⟩ [] ⟨some label, [], m⟩ := by
  induction items with
  | nil => exact .refl _
  | cons item items ih =>
    obtain ⟨hne, hrest⟩ := not_mem_bindLabels_cons h
    exact .step (p := ⟨some label, item :: items, m⟩) trivial
      (congrArg (fun l => some (Point.mk l items m)) (if_neg hne)) (ih hrest)

/-- The label that control was on its way to. -/
theorem bind (label : Nat) (m : HostMachine β) :
    Leads ⟨some label, [.bind label], m⟩ [] ⟨none, [], m⟩ :=
  .one (p := ⟨some label, [.bind label], m⟩) trivial
    (congrArg (fun l => some (Point.mk l [] m)) (if_pos rfl))

/-- Code is passed over up to the label behind it. -/
theorem passOver {label : Nat} (h : label ∉ bindLabels items) (m : HostMachine β) :
    Leads ⟨some label, items ++ [.bind label], m⟩ [] ⟨none, [], m⟩ :=
  (search h m).append (bind label m)

/-- Each way has its dealings, and without dealings with the interpreter it has no calls. -/
theorem exists_of_reaches (h : p.Reaches q) :
    ∃ cs ds, p.Leads cs q ∧ p.Deals ds q ∧
      (.call Helper.interpret.address ∉ ds → cs = []) := by
  induction h using Relation.ReflTransGen.head_induction_on with
  | refl => exact ⟨[], [], .refl _, .refl _, fun _ => rfl⟩
  | @head p r hstep _ ih =>
    obtain ⟨cs, ds, hleads, hdeals, hnone⟩ := ih
    refine ⟨_, _, .step hstep.1 hstep.2 hleads, .step hstep.2 hdeals, fun hmem => ?_⟩
    rw [List.mem_append, not_or] at hmem
    have hcall : p.call? = none := call?_eq_none fun hdealing => hmem.1 (by simp [hdealing])
    rw [hcall, hnone hmem.2]
    rfl

/-- Code makes no calls if its dealings are none. -/
theorem of_dealings (h : p.Reaches q)
    (hdeals : ∀ ds, p.Deals ds q → .call Helper.interpret.address ∉ ds) : p.Leads [] q := by
  obtain ⟨cs, ds, hleads, hpath, hnone⟩ := exists_of_reaches h
  rwa [hnone (hdeals ds hpath)] at hleads

/-- A straight run of instructions of which none is a call. -/
theorem instructions {is : List HostInstruction} (h : HostMachine.Runs is m n)
    (hsilent : ∀ i ∈ is, ∀ m : HostMachine β, i.call? m = none) :
    Leads ⟨none, is.map Item.instruction, m⟩ [] ⟨none, [], n⟩ := by
  induction is generalizing m with
  | nil =>
    obtain rfl : n = m := h
    exact .refl _
  | cons i is ih =>
    obtain ⟨hvalid, m₁, hexecute, hrest⟩ := h
    have hnext : next? ⟨none, .instruction i :: is.map Item.instruction, m⟩ =
        some ⟨none, is.map Item.instruction, m₁⟩ := by
      rw [next?, hexecute]
      rfl
    have hcall : call? ⟨none, .instruction i :: is.map Item.instruction, m⟩ = none :=
      hsilent i List.mem_cons_self m
    have hstep := step (p := ⟨none, .instruction i :: is.map Item.instruction, m⟩) hvalid hnext
      (ih hrest fun j hj => hsilent j (List.mem_cons_of_mem _ hj))
    rwa [hcall] at hstep

/-- The call itself. -/
theorem call {target : HostRegister} (htarget : target.Valid)
    (haddress : m.get target = Helper.interpret.address)
    (hexecute : m.executeStraight (.call target) = some n) :
    Leads ⟨none, [.instruction (.call target)], m⟩ [⟨m.getWord .rsi, m.env⟩] ⟨none, [], n⟩ := by
  have hnext : next? ⟨none, [.instruction (.call target)], m⟩ = some ⟨none, [], n⟩ := by
    rw [next?, hexecute]
    rfl
  have hcall : call? ⟨none, [.instruction (.call target)], m⟩ = some ⟨m.getWord .rsi, m.env⟩ :=
    if_pos haddress
  have hleads := one (p := ⟨none, [.instruction (.call target)], m⟩) htarget hnext
  rwa [hcall] at hleads

end Leads

end Point

/-- Tame instructions make no calls. -/
theorem Sequence.Tame.call?_eq_none {is : List HostInstruction} (h : Sequence.Tame is) :
    ∀ i ∈ is, ∀ m : HostMachine β, i.call? m = none := by
  intro i hi m
  refine HostInstruction.call?_eq_none ?_
  rw [(h i hi).silent]
  simp

end Recompiler
