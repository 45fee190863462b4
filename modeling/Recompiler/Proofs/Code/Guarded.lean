import Recompiler.Proofs.Code.Flow
import Recompiler.Proofs.Host.Contained

/-!
# Guarded code

Symbolic code all of whose instructions stay where they may, on every path. `Guarded` is computed
from the code: what has to hold in front of it, for a condition to hold behind it. Soundness says
that the paths through the code then do hold what was computed.

* `Item.advance?`: what one item does, whatever stands behind it.
* `Guarded`: nothing that the code does is out of bounds, and control comes out of it as wanted.
* `Point.Path`, `Point.Deals`: a path, with its dealings with guest memory.
* `Guarded.of_deals`: soundness.
* `Point.At.follows`: the bytes of laid out code do nothing else than the symbolic code does.
-/

namespace Recompiler

variable {β : Type}

/-! ## One item -/

namespace Item

section Advance

variable [Bus β]

/-- The label that control is on its way to, and the machine, behind an item. There is none where
control leaves the code, and where an instruction is refused. -/
def advance? (m : HostMachine β) : Option Nat → Item → Option (Option Nat × HostMachine β)
  | some label, item => some (if item = .bind label then none else some label, m)
  | none, instruction i => (m.executeStraight i).map (none, ·)
  | none, jump label => some (some label, m)
  | none, jumpIf c label => some (if m.flags.holds c then some label else none, m)
  | none, jumpIfTo c _ => if m.flags.holds c then none else some (none, m)
  | none, bind _ | none, entry => some (none, m)
  | none, jumpTo _ | none, leave .. | none, align _ => none

end Advance

/-- The dealing of an item. Items that are passed over have none. -/
def dealing? (m : HostMachine β) : Option Nat → Item → Option Dealing
  | none, instruction i => i.dealing? m
  | _, _ => none

/-- An instruction that can be encoded, goes on with the one behind it, leaves the registers with
fixed roles alone and stays where it may. Other items do nothing themselves. -/
def Bounded (regions : List FastRegion) (m : HostMachine β) : Option Nat → Item → Prop
  | none, instruction i =>
    i.Valid ∧ i.isStraight = true ∧ (∀ r ∈ i.written, r.Spare) ∧ i.Contained regions m
  | _, _ => True

variable [Bus β] {regions : List FastRegion} {m n : HostMachine β} {label? label?' : Option Nat}
  {item : Item}

theorem Bounded.roles (h : item.Bounded regions m label?) (hm : m.Roles regions)
    (hadvance : item.advance? m label? = some (label?', n)) : n.Roles regions := by
  cases label? with
  | some label =>
    cases hadvance
    exact hm
  | none =>
    cases item with
    | instruction i =>
      obtain ⟨p, hexecute, heq⟩ := Option.map_eq_some_iff.1 hadvance
      cases heq
      exact hm.executeStraight h.1 h.2.2.1 hexecute
    | jumpIfTo c target =>
      rw [advance?] at hadvance
      split at hadvance <;> cases hadvance
      exact hm
    | _ => cases hadvance <;> exact hm

end Item

theorem Point.next?_cons [Bus β] (label? : Option Nat) (item : Item) (rest : List Item)
    (m : HostMachine β) :
    Point.next? ⟨label?, item :: rest, m⟩ =
      (item.advance? m label?).map fun r => ⟨r.1, rest, r.2⟩ := by
  cases label? with
  | some label => rfl
  | none =>
    cases item with
    | instruction i =>
      rw [Point.next?, Item.advance?]
      cases m.executeStraight i <;> rfl
    | jumpIfTo c target =>
      rw [Point.next?, Item.advance?]
      split <;> rfl
    | _ => rfl

/-! ## Guarded code -/

/-- What is wanted of the label that control is on its way to, of the machine and of the dealings
so far. -/
abbrev Outlook (β : Type) := Option Nat → HostMachine β → List Dealing → Prop

/-- From here on control stays in bounds, up to where it leaves the code or comes to its end, where
`post` holds. -/
def Guarded [Bus β] (regions : List FastRegion) (post : Outlook β) : List Item → Outlook β
  | [], label?, m, ds => post label? m ds
  | item :: rest, label?, m, ds =>
    item.Bounded regions m label? ∧ ∀ label?' n, item.advance? m label? = some (label?', n) →
      Guarded regions post rest label?' n (ds ++ (item.dealing? m label?).toList)

namespace Guarded

open HostMachine

variable [Bus β] {regions : List FastRegion} {post post' : Outlook β} {items more : List Item}
  {label? : Option Nat} {m n : HostMachine β} {ds : List Dealing}

theorem mono (h : Guarded regions post items label? m ds)
    (hpost : ∀ label? n ds', post label? n ds' → post' label? n ds') :
    Guarded regions post' items label? m ds := by
  induction items generalizing label? m ds with
  | nil => exact hpost _ _ _ h
  | cons item rest ih => exact ⟨h.1, fun label?' n hadvance => ih (h.2 label?' n hadvance)⟩

theorem append (h : Guarded regions (Guarded regions post more) items label? m ds) :
    Guarded regions post (items ++ more) label? m ds := by
  induction items generalizing label? m ds with
  | nil => exact h
  | cons item rest ih => exact ⟨h.1, fun label?' n hadvance => ih (h.2 label?' n hadvance)⟩

theorem cons {item : Item} (h : Guarded regions (Guarded regions post more) [item] label? m ds) :
    Guarded regions post (item :: more) label? m ds :=
  append h

/-! ### Labels -/

/-- Code in which a label is not bound is passed over on the way to the label. -/
theorem search {label : Nat} (h : label ∉ bindLabels items) (hpost : post (some label) m ds) :
    Guarded regions post items (some label) m ds := by
  induction items with
  | nil => exact hpost
  | cons item items ih =>
    obtain ⟨hne, hrest⟩ := not_mem_bindLabels_cons h
    refine ⟨trivial, fun label?' n hadvance => ?_⟩
    cases hadvance
    rw [if_neg hne]
    simpa [Item.dealing?] using ih hrest

/-- Behind a label control goes on if it was on its way there. -/
theorem bind {label : Nat} (hpost : post (if label? = some label then none else label?) m ds) :
    Guarded regions post [.bind label] label? m ds := by
  cases label? with
  | none =>
    refine ⟨trivial, fun label?' n hadvance => ?_⟩
    cases hadvance
    simpa [Guarded, Item.dealing?] using hpost
  | some label' =>
    refine ⟨trivial, fun label?' n hadvance => ?_⟩
    cases hadvance
    by_cases heq : label' = label
    · subst heq
      simpa [Guarded, Item.dealing?] using hpost
    · rw [if_neg (by simpa using heq)] at hpost
      rw [if_neg (by simpa using Ne.symm heq)]
      simpa [Guarded, Item.dealing?] using hpost

theorem jump {label : Nat} (hpost : post (some label) m ds) :
    Guarded regions post [.jump label] none m ds := by
  refine ⟨trivial, fun label?' n hadvance => ?_⟩
  cases hadvance
  simpa [Guarded, Item.dealing?] using hpost

theorem jumpIf {c : Condition} {label : Nat}
    (hpost : post (if m.flags.holds c then some label else none) m ds) :
    Guarded regions post [.jumpIf c label] none m ds := by
  refine ⟨trivial, fun label?' n hadvance => ?_⟩
  cases hadvance
  simpa [Guarded, Item.dealing?] using hpost

/-! ### Instructions -/

theorem instruction {i : HostInstruction} (hvalid : i.Valid) (hstraight : i.isStraight = true)
    (hwritten : ∀ r ∈ i.written, r.Spare)
    (hcontained : i.Contained regions m)
    (hpost : ∀ n, m.executeStraight i = some n → post none n (ds ++ (i.dealing? m).toList)) :
    Guarded regions post [.instruction i] none m ds := by
  refine ⟨⟨hvalid, hstraight, hwritten, hcontained⟩, fun label?' n hadvance => ?_⟩
  obtain ⟨n, hexecute, heq⟩ := Option.map_eq_some_iff.1 hadvance
  cases heq
  exact hpost n hexecute

/-- Whatever a tame sequence does, the registers with fixed roles keep what they hold. -/
theorem tame {is : List HostInstruction} (his : Sequence.Tame is) (hm : m.Roles regions)
    (hpost : ∀ n, n.Roles regions → post none n ds) :
    Guarded regions post (is.map .instruction) none m ds := by
  induction is generalizing m with
  | nil => exact hpost m hm
  | cons i is ih =>
    have hi := his i List.mem_cons_self
    refine cons (instruction hi.valid hi.straight hi.written (hi.contained regions m hm) ?_)
    intro n hexecute
    rw [hi.silent, Option.toList_none, List.append_nil]
    exact ih (fun j hj => his j (List.mem_cons_of_mem _ hj))
      (hm.executeStraight hi.valid hi.written hexecute)

/-- What a tame sequence is known to do. -/
theorem runs {is : List HostInstruction} (his : Sequence.Tame is) (hm : m.Roles regions)
    (hruns : Runs is m n) (hpost : n.Roles regions → post none n ds) :
    Guarded regions post (is.map .instruction) none m ds := by
  induction is generalizing m with
  | nil =>
    obtain rfl : n = m := hruns
    exact hpost hm
  | cons i is ih =>
    obtain ⟨-, m₁, hexecute, hrest⟩ := hruns
    have hi := his i List.mem_cons_self
    refine cons (instruction hi.valid hi.straight hi.written (hi.contained regions m hm) ?_)
    intro m₂ hexecute'
    cases hexecute.symm.trans hexecute'
    rw [hi.silent, Option.toList_none, List.append_nil]
    exact ih (fun j hj => his j (List.mem_cons_of_mem _ hj))
      (hm.executeStraight hi.valid hi.written hexecute) hrest

/-- Calling a helper is one dealing. -/
theorem call {h : Helper} {args : List Argument} {is : List HostInstruction}
    (hcall : Sequence.call h.address args = .ok is) (hargs : ∀ arg ∈ args, arg.Valid)
    (hm : m.Roles regions)
    (hpost : ∀ n, n.Roles regions → post none n (ds ++ [.call h.address])) :
    Guarded regions post (is.map .instruction) none m ds := by
  obtain ⟨passing, rfl, hpassing⟩ := Sequence.exists_of_call hcall hargs
  rw [List.map_append, List.map_append, List.append_assoc]
  refine append (tame hpassing hm fun m₁ hm₁ => append ?_)
  have hrax : HostRegister.rax.Valid := by decide
  refine runs (Sequence.tame_movePointer (by decide) _) hm₁ (.one hrax rfl) fun hm₂ => ?_
  have hget := get_set_self m₁ .rax h.address
  have hwritten : ∀ r ∈ (HostInstruction.call .rax).written, r.Spare := by
    simp only [HostInstruction.written]
    decide
  refine instruction hrax rfl hwritten ?_ fun n hexecute => ?_
  · change (Helper.ofAddress? ((m₁.set .rax h.address).get .rax)).isSome = true
    rw [hget, Sequence.ofAddress?_address]
    rfl
  · have hdealing : (HostInstruction.call .rax).dealing? (m₁.set .rax h.address) =
        some (.call h.address) := by
      rw [HostInstruction.dealing?, hget]
    rw [hdealing]
    exact hpost n (hm₂.executeStraight (i := .call .rax) hrax hwritten hexecute)

end Guarded

/-! ## Soundness -/

/-- The dealing of what stands at a point. -/
def Point.dealing? (p : Point β) : Option Dealing :=
  p.items.head?.bind (·.dealing? p.machine p.label?)

/-- What stands at a point stays where it may. -/
def Point.Bounded (regions : List FastRegion) (p : Point β) : Prop :=
  ∀ item ∈ p.items.head?, item.Bounded regions p.machine p.label?

/-- A path from one point to another, with what `trace` gives on the way. -/
inductive Point.Path [Bus β] {α : Type} (trace : Point β → Option α) :
    Point β → List α → Point β → Prop
  | refl (p : Point β) : Path trace p [] p
  | step {p q r : Point β} {ts : List α} :
    p.next? = some q → Path trace q ts r → Path trace p ((trace p).toList ++ ts) r

/-- A path from one point to another, with its dealings from first to last. -/
abbrev Point.Deals [Bus β] : Point β → List Dealing → Point β → Prop :=
  Point.Path Point.dealing?

namespace Guarded

variable [Bus β] {regions : List FastRegion} {post : Outlook β} {p q : Point β}
  {ds ds' : List Dealing}

theorem bounded (h : Guarded regions post p.items p.label? p.machine ds) : p.Bounded regions := by
  obtain ⟨label?, items, m⟩ := p
  cases items with
  | nil => intro item hitem; cases hitem
  | cons item rest =>
    intro item' hitem
    cases hitem
    exact h.1

/-- One step stays in guarded code. -/
theorem of_next? (h : Guarded regions post p.items p.label? p.machine ds) (hnext : p.next? = some q) :
    Guarded regions post q.items q.label? q.machine (ds ++ p.dealing?.toList) := by
  obtain ⟨label?, items, m⟩ := p
  cases items with
  | nil => cases label? <;> cases hnext
  | cons item rest =>
    rw [Point.next?_cons] at hnext
    obtain ⟨⟨label?', n⟩, hadvance, rfl⟩ := Option.map_eq_some_iff.1 hnext
    exact h.2 label?' n hadvance

/-- Every path stays in guarded code. -/
theorem of_deals (h : Guarded regions post p.items p.label? p.machine ds) (hpath : p.Deals ds' q) :
    Guarded regions post q.items q.label? q.machine (ds ++ ds') := by
  induction hpath generalizing ds with
  | refl p => rwa [List.append_nil]
  | step hnext _ ih =>
    rw [← List.append_assoc]
    exact ih (h.of_next? hnext)

/-- Along a path the registers with fixed roles keep what they hold. -/
theorem roles (h : Guarded regions post p.items p.label? p.machine ds) (hp : p.machine.Roles regions)
    (hpath : p.Deals ds' q) : q.machine.Roles regions := by
  induction hpath generalizing ds with
  | refl p => exact hp
  | @step p q r ds' hnext _ ih =>
    refine ih (h.of_next? hnext) ?_
    obtain ⟨label?, items, m⟩ := p
    cases items with
    | nil => cases label? <;> cases hnext
    | cons item rest =>
      rw [Point.next?_cons] at hnext
      obtain ⟨⟨label?', n⟩, hadvance, rfl⟩ := Option.map_eq_some_iff.1 hnext
      exact h.1.roles hp hadvance

theorem valid (h : Guarded regions post p.items p.label? p.machine ds) : p.Valid := by
  obtain ⟨label?, items, m⟩ := p
  cases label? with
  | some label => trivial
  | none =>
    cases items with
    | nil => trivial
    | cons item rest =>
      cases item with
      | instruction i => exact h.1.1
      | _ => trivial

end Guarded

/-! ## Guarded code and its bytes -/

/-- Control is about to leave the code, or has come to its end. -/
def Point.Leaves : Point β → Prop
  | ⟨none, [], _⟩ | ⟨none, .jumpTo _ :: _, _⟩ | ⟨none, .leave .. :: _, _⟩
  | ⟨none, .align _ :: _, _⟩ => True
  | ⟨none, .jumpIfTo c _ :: _, m⟩ => m.flags.holds c = true
  | _ => False

/-- The instruction at the current offset stays where it may. -/
def HostMachine.Bounded (regions : List FastRegion) (code : Arena) (m : HostMachine β) : Prop :=
  ∃ i rest, HostInstruction.decode? (code.window m.ip HostInstruction.maxLength) = some (i, rest) ∧
    i.Contained regions m

namespace Point.At

open HostMachine

variable {code : Arena} {offset ip : Nat} {p q : Point β} {regions : List FastRegion}

theorem bounded_of_hasBytes {i : HostInstruction} {m : HostMachine β}
    (h : HasBytes code.written ip i.encode) (hi : i.Valid) (hcontained : i.Contained regions m) :
    (m.goto ip).Bounded regions code := by
  obtain ⟨rest, hwindow⟩ := window_of_hasBytes h (HostInstruction.length_encode_le i).2
  refine ⟨i, rest, ?_, ?_⟩
  · rw [ip_goto, hwindow, HostInstruction.decode?_encode hi]
  · exact hcontained

/-- Where the next step is one of the machine, it stays where it may. -/
theorem bounded (hp : p.At code offset ip) (hbounded : p.Bounded regions) (hpace : p.pace = 1) :
    (p.machine.goto ip).Bounded regions code := by
  obtain ⟨label?, items, m⟩ := p
  obtain ⟨hlaid, -, hclosed, hip⟩ := hp
  cases label? with
  | some label => cases hpace
  | none =>
    obtain rfl : ip = offset := hip
    cases items with
    | nil => cases hpace
    | cons item rest =>
      obtain ⟨hplaced, -⟩ := hlaid
      cases item with
      | instruction i =>
        obtain ⟨hvalid, -, -, hcontained⟩ := hbounded _ rfl
        exact bounded_of_hasBytes hplaced hvalid hcontained
      | jump label =>
        obtain ⟨target, htarget⟩ := Layout.exists_labelOffset? (hclosed.1 label rfl) (ip + 5)
        exact bounded_of_hasBytes (hplaced target htarget) trivial trivial
      | jumpIf c label =>
        obtain ⟨target, htarget⟩ := Layout.exists_labelOffset? (hclosed.1 label rfl) (ip + 6)
        exact bounded_of_hasBytes (hplaced target htarget) trivial trivial
      | jumpIfTo c target => exact bounded_of_hasBytes hplaced trivial trivial
      | _ => cases hpace

variable [Bus β] {post : Outlook β} {ds : List Dealing} {k : Nat} {n : HostMachine β}

/-- Where there is no symbolic step, control leaves or the machine is stuck. -/
theorem leaves_or_stuck (hp : p.At code offset ip) (hbounded : p.Bounded regions)
    (hnext : p.next? = none) :
    p.Leaves ∨ p.pace = 1 ∧ (p.machine.goto ip).step code = none := by
  obtain ⟨label?, items, m⟩ := p
  obtain ⟨hlaid, -, -, hip⟩ := hp
  cases label? with
  | some label =>
    cases items with
    | nil => cases hip
    | cons item rest => cases hnext
  | none =>
    obtain rfl : ip = offset := hip
    cases items with
    | nil => exact .inl trivial
    | cons item rest =>
      cases item with
      | instruction i =>
        obtain ⟨hvalid, hstraight, -, -⟩ := hbounded _ rfl
        refine .inr ⟨rfl, ?_⟩
        rw [step_of_hasBytes hlaid.1 hvalid, HostInstruction.execute_of_isStraight hstraight,
          executeStraight_goto, Option.map_eq_none_iff.1 hnext]
        rfl
      | jumpIfTo c target =>
        rw [Point.next?] at hnext
        split at hnext
        · next htaken => exact .inl htaken
        · cases hnext
      | jumpTo target => exact .inl trivial
      | leave target destination linked => exact .inl trivial
      | align alignment => exact .inl trivial
      | _ => cases hnext

/-- However far the machine has come, it stays where it may, unless it has left the code. -/
theorem follows (hp : p.At code offset ip)
    (hguarded : Guarded regions post p.items p.label? p.machine ds)
    (hsteps : Steps code k (p.machine.goto ip) n) :
    n.Bounded regions code ∨ ∃ q ds' ip' j, p.Deals ds' q ∧ q.Leaves ∧ j ≤ k ∧
      Steps code j (p.machine.goto ip) (q.machine.goto ip') := by
  -- By induction on the items that are left. To pass a label takes no step, so the pace tells
  -- whether one of the steps is spent here.
  obtain ⟨label?, items, m⟩ := p
  induction items generalizing label? m offset ip k ds with
  | nil =>
    cases label? with
    | none => exact .inr ⟨_, [], ip, 0, .refl _, trivial, Nat.zero_le k, rfl⟩
    | some label => cases hp.ip
  | cons item rest ih =>
    by_cases hpace : Point.pace ⟨label?, item :: rest, m⟩ ≤ k
    · cases hnext : Point.next? ⟨label?, item :: rest, m⟩ with
      | none =>
        rcases hp.leaves_or_stuck hguarded.bounded hnext with hleaves | ⟨hpace', hstuck⟩
        · exact .inr ⟨_, [], ip, 0, .refl _, hleaves, Nat.zero_le k, rfl⟩
        · obtain ⟨k, rfl⟩ : ∃ k', k = k' + 1 := ⟨k - 1, by omega⟩
          obtain ⟨m₁, hstep, -⟩ := hsteps
          cases hstuck.symm.trans hstep
      | some q =>
        obtain ⟨_, ip', -, hq, -, hahead⟩ := hp.step hguarded.valid hnext
        have hrest := hguarded.of_next? hnext
        have hpath {r : Point β} {ds' : List Dealing} (hr : q.Deals ds' r) := Path.step hnext hr
        rw [Point.next?_cons] at hnext
        obtain ⟨⟨label?', m'⟩, -, rfl⟩ := Option.map_eq_some_iff.1 hnext
        rcases ih label?' m' hq hrest (hsteps.drop hahead hpace) with
          hbounded | ⟨r, ds', ip₁, j, hr, hleaves, hj, hj'⟩
        · exact .inl hbounded
        · exact .inr ⟨r, _, ip₁, _, hpath hr, hleaves, by omega, hahead.trans hj'⟩
    · have hzero : k = 0 ∧ Point.pace ⟨label?, item :: rest, m⟩ = 1 := by
        have := Point.pace_le_one ⟨label?, item :: rest, m⟩
        omega
      obtain ⟨rfl, hpace'⟩ := hzero
      obtain rfl : n = m.goto ip := hsteps
      exact .inl (hp.bounded hguarded.bounded hpace')

end Point.At

end Recompiler
