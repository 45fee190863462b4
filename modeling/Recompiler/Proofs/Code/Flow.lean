import Mathlib.Logic.Relation
import Recompiler.Proofs.Code.Running

/-!
# The flow of symbolic code

What symbolic code does before it is assembled: instructions change the machine, and jumps look for
the label they lead to, which stands behind them.

* `Point`, `Point.next?`: one step.
* `Point.Reaches`: steps with instructions that can be encoded.
* `Passes`: a piece of symbolic code is passed, whatever stands behind it.
* `Closed`: every jump leads to a label behind it.
* `Point.Reaches.steps`: the bytes of laid out code do what the symbolic code does.
-/

namespace Recompiler

variable {β : Type}

/-! ## Labels -/

/-- Every jump leads to a label that is bound behind it. -/
def Closed : List Item → Prop
  | [] => True
  | item :: rest =>
    (∀ label, item.jumpLabel? = some label → label ∈ bindLabels rest) ∧ Closed rest

theorem bindLabels_append_of_mem {items : List Item} {label : Nat} (h : label ∈ bindLabels items)
    (more : List Item) : label ∈ bindLabels (items ++ more) := by
  rw [bindLabels, List.filterMap_append]
  exact List.mem_append_left _ h

@[simp] theorem bindLabels_nil : bindLabels [] = [] := rfl

@[simp] theorem bindLabels_jump (label : Nat) (rest : List Item) :
    bindLabels (.jump label :: rest) = bindLabels rest := rfl

@[simp] theorem bindLabels_jumpIf (c : Condition) (label : Nat) (rest : List Item) :
    bindLabels (.jumpIf c label :: rest) = bindLabels rest := rfl

namespace Closed

variable {items more : List Item}

theorem append (h : Closed items) (h' : Closed more) : Closed (items ++ more) := by
  induction items with
  | nil => exact h'
  | cons item rest ih =>
    exact ⟨fun label hlabel => bindLabels_append_of_mem (h.1 label hlabel) more, ih h.2⟩

theorem of_no_jumps (h : ∀ item ∈ items, item.jumpLabel? = none) : Closed items := by
  induction items with
  | nil => trivial
  | cons item rest ih =>
    refine ⟨fun label hlabel => ?_, ih fun item hitem => h item (List.mem_cons_of_mem _ hitem)⟩
    rw [h item List.mem_cons_self] at hlabel
    cases hlabel

theorem instructions (is : List HostInstruction) : Closed (is.map Item.instruction) := by
  refine of_no_jumps fun item hitem => ?_
  obtain ⟨i, -, rfl⟩ := List.mem_map.1 hitem
  rfl

end Closed

theorem Layout.labelOffset?_le {label offset target : Nat} {items : List Item}
    (h : labelOffset? label offset items = some target) :
    offset ≤ target ∧ target ≤ stop offset items := by
  induction items generalizing offset with
  | nil => cases h
  | cons item rest ih =>
    have hrest {offset' : Nat} (hsize : offset' = offset + item.size offset)
        (h : labelOffset? label offset' rest = some target) :
        offset ≤ target ∧ target ≤ stop offset (item :: rest) := by
      subst hsize
      have hle := ih h
      exact ⟨by omega, hle.2⟩
    cases hbind : item.bindLabel? with
    | none =>
      rw [labelOffset?_cons hbind] at h
      exact hrest rfl h
    | some label' =>
      obtain rfl := Item.eq_bind_of_bindLabel? hbind
      rw [labelOffset?_bind] at h
      split at h
      · cases h
        exact ⟨Nat.le_refl _, le_stop _ _⟩
      · exact hrest rfl h

/-! ## Points -/

/-- A point in symbolic code that control has come to. -/
structure Point (β : Type) where
  /-- The label that control is on its way to. -/
  label? : Option Nat
  /-- The code that is left. -/
  items : List Item
  /-- The machine. -/
  machine : HostMachine β

namespace Point

/-- The instruction that is about to run can be encoded. -/
def Valid : Point β → Prop
  | ⟨none, .instruction i :: _, _⟩ => i.Valid
  | _ => True

variable [Bus β]

/-- The point after one step. There is none where the code is left and where an instruction is
refused. -/
def next? : Point β → Option (Point β)
  | ⟨_, [], _⟩ => none
  | ⟨some label, item :: rest, m⟩ =>
    some ⟨if item = .bind label then none else some label, rest, m⟩
  | ⟨none, .instruction i :: rest, m⟩ => (m.executeStraight i).map (⟨none, rest, ·⟩)
  | ⟨none, .jump label :: rest, m⟩ => some ⟨some label, rest, m⟩
  | ⟨none, .jumpIf c label :: rest, m⟩ =>
    some ⟨if m.flags.holds c then some label else none, rest, m⟩
  | ⟨none, .jumpIfTo c _ :: rest, m⟩ => if m.flags.holds c then none else some ⟨none, rest, m⟩
  | ⟨none, .bind _ :: rest, m⟩ | ⟨none, .entry :: rest, m⟩ => some ⟨none, rest, m⟩
  | ⟨none, .jumpTo _ :: _, _⟩ | ⟨none, .leave .. :: _, _⟩ | ⟨none, .align _ :: _, _⟩ => none

/-- Some steps lead from one point to another, and all instructions on the way can be encoded. -/
def Reaches : Point β → Point β → Prop :=
  Relation.ReflTransGen fun p q => p.Valid ∧ p.next? = some q

theorem Reaches.one {p q : Point β} (hvalid : p.Valid) (h : p.next? = some q) : p.Reaches q :=
  .single ⟨hvalid, h⟩

end Point

/-! ## Passing a piece of code -/

/-- Control passes a piece of symbolic code, whatever stands behind it. -/
def Passes [Bus β] (label? : Option Nat) (items : List Item) (m : HostMachine β)
    (label?' : Option Nat) (n : HostMachine β) : Prop :=
  ∀ rest, Point.Reaches ⟨label?, items ++ rest, m⟩ ⟨label?', rest, n⟩

namespace Passes

variable [Bus β] {label? label?' label?'' : Option Nat} {items more : List Item}
  {m n p : HostMachine β} {label : Nat}

theorem nil (label? : Option Nat) (m : HostMachine β) : Passes label? [] m label? m :=
  fun _ => .refl

theorem append (h : Passes label? items m label?' n) (h' : Passes label?' more n label?'' p) :
    Passes label? (items ++ more) m label?'' p := by
  intro rest
  rw [List.append_assoc]
  exact (h (more ++ rest)).trans (h' rest)

theorem cons {item : Item} (h : Passes label? [item] m label?' n)
    (h' : Passes label?' more n label?'' p) : Passes label? (item :: more) m label?'' p :=
  h.append h'

/-- A straight run of instructions. -/
theorem instructions {is : List HostInstruction} (h : HostMachine.Runs is m n) :
    Passes none (is.map Item.instruction) m none n := by
  intro rest
  induction is generalizing m with
  | nil =>
    obtain rfl : n = m := h
    exact .refl
  | cons i is ih =>
    obtain ⟨hvalid, m₁, hexecute, hrest⟩ := h
    have hnext : Point.next? ⟨none, .instruction i :: (is.map Item.instruction ++ rest), m⟩ =
        some ⟨none, is.map Item.instruction ++ rest, m₁⟩ := by
      rw [Point.next?, hexecute]
      rfl
    exact .head ⟨hvalid, hnext⟩ (ih hrest)

/-- Passing a straight run of instructions is nothing but running it. -/
theorem runs {is : List HostInstruction} (h : Passes none (is.map Item.instruction) m none n) :
    HostMachine.Runs is m n := by
  have hreaches := h []
  rw [List.append_nil] at hreaches
  clear h
  induction is generalizing m with
  | nil =>
    cases Relation.ReflTransGen.cases_head hreaches with
    | inl heq => exact (congrArg Point.machine heq).symm
    | inr hstep =>
      obtain ⟨_, ⟨-, hnext⟩, -⟩ := hstep
      cases hnext
  | cons i is ih =>
    cases Relation.ReflTransGen.cases_head hreaches with
    | inl heq => cases congrArg Point.items heq
    | inr hstep =>
      obtain ⟨p, ⟨hvalid, hnext⟩, hrest⟩ := hstep
      obtain ⟨m₁, hexecute, rfl⟩ := Option.map_eq_some_iff.1 hnext
      exact ⟨hvalid, m₁, hexecute, ih hrest⟩

/-- Code in which a label is not bound is passed over on the way to the label. -/
theorem search (h : label ∉ bindLabels items) (m : HostMachine β) :
    Passes (some label) items m (some label) m := by
  intro rest
  induction items with
  | nil => exact .refl
  | cons item items ih =>
    obtain ⟨hne, hrest⟩ := not_mem_bindLabels_cons h
    exact .head ⟨trivial, congrArg (fun l => some (Point.mk l _ m)) (if_neg hne)⟩ (ih hrest)

theorem bind (label : Nat) (m : HostMachine β) : Passes (some label) [.bind label] m none m :=
  fun _ => .one trivial (congrArg (fun l => some (Point.mk l _ m)) (if_pos rfl))

theorem pass_bind (label : Nat) (m : HostMachine β) : Passes none [.bind label] m none m :=
  fun _ => .one trivial rfl

theorem jump (label : Nat) (m : HostMachine β) : Passes none [.jump label] m (some label) m :=
  fun _ => .one trivial rfl

theorem jumpIf (c : Condition) (label : Nat) (m : HostMachine β) :
    Passes none [.jumpIf c label] m (if m.flags.holds c then some label else none) m :=
  fun _ => .one trivial rfl

end Passes

/-! ## Symbolic code and its bytes -/

namespace Point

/-- The code that is left lies in an arena from `offset` on, and control is at `ip`. -/
structure At (code : Arena) (offset ip : Nat) (p : Point β) : Prop where
  laid : Laid code.written offset p.items
  stop : Layout.stop offset p.items ≤ 0x80000000
  closed : Closed p.items
  ip : match p.label? with
    | none => ip = offset
    | some label => Layout.labelOffset? label offset p.items = some ip

/-- The number of steps of the machine that one symbolic step takes. There are none where the code is
only passed over. -/
def pace : Point β → Nat
  | ⟨none, .instruction _ :: _, _⟩ | ⟨none, .jump _ :: _, _⟩ | ⟨none, .jumpIf .. :: _, _⟩
  | ⟨none, .jumpIfTo .. :: _, _⟩ => 1
  | _ => 0

theorem pace_le_one (p : Point β) : p.pace ≤ 1 := by
  unfold pace
  split <;> decide

open HostMachine

variable [Bus β] {code : Arena} {offset ip : Nat} {p q : Point β}

/-- One symbolic step takes the machine along at its pace, past the item that it is about. -/
theorem At.step (hp : p.At code offset ip) (hvalid : p.Valid) (h : p.next? = some q) :
    ∃ item ip', p.items = item :: q.items ∧ q.At code (offset + item.size offset) ip' ∧
      ip + p.pace ≤ ip' ∧ Steps code p.pace (p.machine.goto ip) (q.machine.goto ip') := by
  obtain ⟨label?, items, m⟩ := p
  cases items with
  | nil => cases label? <;> cases h
  | cons item rest =>
    obtain ⟨⟨hplaced, hlaid⟩, hstop, ⟨hbound, hclosed⟩, hip⟩ := hp
    change Layout.stop (offset + item.size offset) rest ≤ 0x80000000 at hstop
    dsimp only at hip
    -- Either the machine goes on behind the item, or it looks for a label in what is left.
    have hnext (n : HostMachine β) :
        Point.At code (offset + item.size offset) (offset + item.size offset) ⟨none, rest, n⟩ :=
      ⟨hlaid, hstop, hclosed, rfl⟩
    have hle := Layout.le_stop (offset + item.size offset) rest
    have htoward {label ip : Nat} (n : HostMachine β)
        (hlabel : Layout.labelOffset? label (offset + item.size offset) rest = some ip) :
        Point.At code (offset + item.size offset) ip ⟨some label, rest, n⟩ :=
      ⟨hlaid, hstop, hclosed, hlabel⟩
    cases label? with
    | some label =>
      change Layout.labelOffset? label offset (item :: rest) = some ip at hip
      cases h
      -- The machine has jumped already, so looking for the label takes no step of it.
      by_cases hbind : item = .bind label
      · subst hbind
        rw [Layout.labelOffset?_bind, if_pos rfl] at hip
        cases hip
        rw [if_pos rfl]
        exact ⟨_, _, rfl, hnext m, Nat.le_refl _, rfl⟩
      · rw [if_neg hbind]
        refine ⟨item, ip, rfl, htoward m ?_, Nat.le_refl _, rfl⟩
        rw [← hip]
        cases item with
        | bind label' =>
          exact ((Layout.labelOffset?_bind ..).trans
            (if_neg fun heq => hbind (congrArg _ heq))).symm
        | _ => exact (Layout.labelOffset?_cons rfl _ _ _).symm
    | none =>
      obtain rfl : ip = offset := hip
      cases item with
      | instruction i =>
        obtain ⟨n, hexecute, rfl⟩ := Option.map_eq_some_iff.1 h
        -- Here the symbolic step is one of the machine, which is somewhere behind afterwards.
        have hlength := (HostInstruction.length_encode_le i).1
        refine ⟨_, _, rfl, hnext n, Nat.add_le_add_left hlength ip, .one ?_⟩
        have hstep := (step_of_hasBytes hplaced hvalid m).trans
          (HostInstruction.execute_of_isStraight
            (HostInstruction.isStraight_of_executeStraight hexecute) _)
        rw [executeStraight_goto, hexecute] at hstep
        exact hstep
      | jump label =>
        cases h
        obtain ⟨target, htarget⟩ := Layout.exists_labelOffset? (hbound label rfl) (ip + 5)
        have hwithin := Layout.labelOffset?_le htarget
        change Layout.stop (ip + 5) rest ≤ _ at hstop
        exact ⟨_, target, rfl, htoward m htarget, by change ip + 1 ≤ target; omega,
          .one (step_jump (hplaced target htarget) (by omega) (by omega) m)⟩
      | jumpIf c label =>
        cases h
        obtain ⟨target, htarget⟩ := Layout.exists_labelOffset? (hbound label rfl) (ip + 6)
        have hwithin := Layout.labelOffset?_le htarget
        change Layout.stop (ip + 6) rest ≤ _ at hstop
        have hstep := step_jumpIf (m := m) (hplaced target htarget) (fun _ => by omega) (by omega)
        by_cases htaken : m.flags.holds c = true
        · rw [if_pos htaken] at hstep ⊢
          exact ⟨_, target, rfl, htoward m htarget, by change ip + 1 ≤ target; omega, .one hstep⟩
        · rw [if_neg htaken] at hstep ⊢
          exact ⟨_, _, rfl, hnext m, by change ip + 1 ≤ ip + 6; omega, .one hstep⟩
      | jumpIfTo c target =>
        change (if m.flags.holds c then none else _) = _ at h
        change ip + 6 ≤ Layout.stop (ip + 6) rest at hle
        change Layout.stop (ip + 6) rest ≤ _ at hstop
        split at h
        · cases h
        · next htaken =>
          cases h
          have hstep := step_jumpIf (m := m) hplaced (fun htaken' => absurd htaken' htaken)
            (by omega)
          rw [if_neg htaken] at hstep
          exact ⟨_, _, rfl, hnext m, by change ip + 1 ≤ ip + 6; omega, .one hstep⟩
      | bind label =>
        cases h
        exact ⟨_, _, rfl, hnext m, Nat.le_refl _, rfl⟩
      | entry =>
        cases h
        exact ⟨_, _, rfl, hnext m, Nat.le_refl _, rfl⟩
      | jumpTo target => cases h
      | leave target destination linked => cases h
      | align alignment => cases h

/-- The bytes of laid out code do what the symbolic code does. -/
theorem Reaches.steps (hp : p.At code offset ip) (h : p.Reaches q) :
    ∃ offset' ip' k, q.At code offset' ip' ∧
      Layout.stop offset' q.items = Layout.stop offset p.items ∧
      Steps code k (p.machine.goto ip) (q.machine.goto ip') := by
  induction h using Relation.ReflTransGen.head_induction_on generalizing offset ip with
  | refl => exact ⟨offset, ip, 0, hp, rfl, rfl⟩
  | head hstep _ ih =>
    obtain ⟨item, ip₁, hitems, hq, -, hsteps⟩ := hp.step hstep.1 hstep.2
    obtain ⟨offset₂, ip₂, k, hr, hstop, hsteps'⟩ := ih hq
    exact ⟨offset₂, ip₂, _, hr, hitems ▸ hstop, hsteps.trans hsteps'⟩

end Point

/-- The bytes of a piece of laid out code that is passed lead behind it. -/
theorem Passes.steps [Bus β] {code : Arena} {items : List Item} {m n : HostMachine β}
    (h : Passes none items m none n) {offset : Nat} (hlaid : Laid code.written offset items)
    (hclosed : Closed items) (hstop : Layout.stop offset items ≤ 0x80000000) :
    ∃ k, HostMachine.Steps code k (m.goto offset) (n.goto (Layout.stop offset items)) := by
  have hreaches := h []
  rw [List.append_nil] at hreaches
  have hat : Point.At code offset offset ⟨none, items, m⟩ := ⟨hlaid, hstop, hclosed, rfl⟩
  obtain ⟨offset', ip', k, ⟨-, -, -, hip⟩, hsame, hsteps⟩ := hreaches.steps hat
  obtain rfl : ip' = offset' := hip
  obtain rfl : ip' = Layout.stop offset items := hsame
  exact ⟨k, hsteps⟩

end Recompiler
