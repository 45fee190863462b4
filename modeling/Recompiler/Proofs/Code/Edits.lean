import Recompiler.Proofs.Code.Writing

/-!
# Arenas as lists of bytes

An arena is a list of bytes with a limit that writes may not pass. Whatever is asked of it, in any
order, its bytes are those of the accepted operations, one after the other.

* `Arena.Operation`: what may be asked of an arena.
* `Arena.Operation.Accepted`, `Arena.Operation.edit`: when an operation is accepted, and what it
  then does to the bytes.
* `Arena.accepted`: the accepted operations of a history.
* `Arena.toList_written_after`: the bytes after a history.
* `Arena.overflowed_after_iff`: when a history leaves an overflow.
* `Arena.refines_bytes`: both, together with the room that is kept and what is answered next.
-/

namespace Recompiler

namespace Arena

/-! ## Operations -/

/-- Something asked of an arena. -/
inductive Operation where
  | reserve (count : Nat)
  | emit (bytes : List UInt8)
  | patch (offset : Nat) (bytes : List UInt8)
  | takeOverflow
  | truncate (offset : Nat)
  | reset
  deriving DecidableEq, Repr

namespace Operation

/-- What an arena answers to an operation, and what it is afterwards. -/
def perform : Operation → Arena → Option Bool × Arena
  | reserve count, a => ((a.reserve count).1, (a.reserve count).2)
  | emit bytes, a => (none, a.emit bytes)
  | patch offset bytes, a => ((a.patch offset bytes).1, (a.patch offset bytes).2)
  | takeOverflow, a => (a.takeOverflow.1, a.takeOverflow.2)
  | truncate offset, a => (none, a.truncate offset)
  | reset, a => (none, a.reset)

/-- The arena does what is asked. It refuses to reserve more than it has, to append behind the limit
or while an overflow is pending, and to patch what is not written. -/
def Accepted (a : Arena) : Operation → Prop
  | reserve count => a.size + count ≤ a.capacity
  | emit bytes => a.overflowed = false ∧ a.size + bytes.length ≤ a.limit
  | patch offset bytes => offset + bytes.length ≤ a.size
  | takeOverflow | truncate _ | reset => True

instance (a : Arena) (op : Operation) : Decidable (op.Accepted a) :=
  match op with
  | reserve _ | patch _ _ => inferInstanceAs (Decidable (_ ≤ _))
  | emit _ => inferInstanceAs (Decidable (_ ∧ _))
  | takeOverflow | truncate _ | reset => inferInstanceAs (Decidable True)

/-- What an accepted operation does to the bytes. -/
def edit : Operation → List UInt8 → List UInt8
  | emit bytes, written => written ++ bytes
  | patch offset bytes, written =>
    written.take offset ++ bytes ++ written.drop (offset + bytes.length)
  | truncate offset, written => written.take offset
  | reset, _ => []
  | reserve _, written | takeOverflow, written => written

/-- The limit that an accepted operation leaves. -/
def limit (a : Arena) : Operation → Nat
  | reserve count => a.size + count
  | reset => a.capacity
  | emit _ | patch _ _ | takeOverflow | truncate _ => a.limit

/-- The answer to an operation, of those that have one. -/
def answer (a : Arena) : Operation → Option Bool
  | reserve count => decide ((reserve count).Accepted a)
  | patch offset bytes => decide ((patch offset bytes).Accepted a)
  | takeOverflow => a.overflowed
  | emit _ | truncate _ | reset => none

/-- The operation settles an overflow. -/
def Settles (op : Operation) : Prop :=
  op = takeOverflow ∨ op = reset

/-- An overflow is pending after an operation. -/
def overflows (a : Arena) : Operation → Bool
  | emit bytes => !decide ((emit bytes).Accepted a)
  | takeOverflow | reset => false
  | reserve _ | patch _ _ | truncate _ => a.overflowed

/-- A patch takes the place of as many bytes as it has. -/
theorem toList_overwrite {written : Array UInt8} {offset : Nat} {bytes : List UInt8}
    (h : offset + bytes.length ≤ written.size) :
    (overwrite written offset bytes).toList = (patch offset bytes).edit written.toList := by
  have hlength : (written.toList.take offset).length = offset := by
    rw [List.length_take, Array.length_toList]
    omega
  apply List.ext_getElem?
  intro i
  rw [Array.getElem?_toList, getElem?_overwrite, edit, List.append_assoc, List.getElem?_append,
    List.getElem?_append, hlength]
  -- A place is before the patch, inside it or behind it.
  obtain hbefore | hinside | hbehind :
    i < offset ∨ (offset ≤ i ∧ i < offset + bytes.length) ∨ offset + bytes.length ≤ i := by omega
  · rw [if_neg (by omega), if_pos hbefore, List.getElem?_take_of_lt hbefore, Array.getElem?_toList]
  · rw [if_pos (by omega), if_neg (by omega), if_pos (by omega)]
  · have hindex : offset + bytes.length + (i - offset - bytes.length) = i := by omega
    rw [if_neg (by omega), if_neg (by omega), if_neg (by omega), List.getElem?_drop, hindex,
      Array.getElem?_toList]

variable (op : Operation) (a : Arena)

theorem perform_fst : (op.perform a).1 = op.answer a := by
  cases op with
  | reserve count =>
    by_cases h : a.size + count ≤ a.capacity <;>
      simp [perform, Arena.reserve, answer, Accepted, h]
  | patch offset bytes =>
    by_cases h : offset + bytes.length ≤ a.size <;>
      simp [perform, Arena.patch, answer, Accepted, h]
  | takeOverflow | emit _ | truncate _ | reset => rfl

/-- What becomes of an arena: an accepted operation edits the bytes and may move the limit, and a
refused one does neither. -/
theorem perform_snd :
    (op.perform a).2 =
      { capacity := a.capacity
        written := (if op.Accepted a then op.edit a.written.toList else a.written.toList).toArray
        limit := if op.Accepted a then op.limit a else a.limit
        overflowed := op.overflows a } := by
  cases op with
  | reserve count =>
    by_cases h : a.size + count ≤ a.capacity <;>
      simp [perform, Arena.reserve, Accepted, limit, edit, overflows, h]
  | emit bytes =>
    by_cases h : (emit bytes).Accepted a
    · have hwritten : a.written ++ bytes = (a.written.toList ++ bytes).toArray := by
        apply Array.ext'
        simp
      simp [perform, emit_of_fits h.1 h.2, append, limit, edit, overflows, h, h.1, hwritten]
    · have hdrop : a.overflowed = true ∨ a.limit < a.size + bytes.length := by
        by_cases hflag : a.overflowed = true
        · exact .inl hflag
        · exact .inr (Nat.not_le.1 fun hfits => h ⟨eq_false_of_ne_true hflag, hfits⟩)
      simp [perform, Arena.emit, hdrop, overflows, h]
  | patch offset bytes =>
    by_cases h : offset + bytes.length ≤ a.size
    · have hpatch := toList_overwrite h
      simp [perform, patch_snd, Accepted, limit, overflows, h, ← hpatch]
    · simp [perform, patch_snd, Accepted, overflows, h]
  | takeOverflow => simp [perform, Arena.takeOverflow, Accepted, limit, edit, overflows]
  | truncate offset =>
    have hwritten : a.written.shrink offset = (a.written.toList.take offset).toArray := by
      apply Array.ext'
      simp
    rw [perform, Arena.truncate, hwritten]
    rfl
  | reset => rfl

/-- An overflow is pending because bytes were dropped right now, or because it was pending before
and is not settled. -/
theorem overflows_iff :
    op.overflows a = true ↔
      (∃ bytes, op = emit bytes ∧ ¬op.Accepted a) ∨ (a.overflowed = true ∧ ¬op.Settles) := by
  cases op with
  | emit bytes =>
    have hsettles : ¬(emit bytes).Settles := by simp [Settles]
    constructor
    · intro h
      exact .inl ⟨bytes, rfl, by simpa [overflows] using h⟩
    · rintro (⟨-, -, h⟩ | ⟨h, -⟩)
      · simpa [overflows] using h
      · simp [overflows, Accepted, h]
  | reserve _ | patch _ _ | takeOverflow | truncate _ | reset => simp [overflows, Settles]

/-- Operations neither pass the limit nor move it behind the capacity. -/
theorem within_perform (h : a.size ≤ a.limit) (h' : a.limit ≤ a.capacity) :
    (op.perform a).2.size ≤ (op.perform a).2.limit ∧ (op.perform a).2.limit ≤ a.capacity := by
  have hsize : a.written.toList.length = a.size := Array.length_toList
  rw [perform_snd]
  by_cases haccepted : op.Accepted a
  · simp only [if_pos haccepted, Arena.size, List.size_toArray]
    cases op with
    | reserve count => exact ⟨hsize ▸ Nat.le_add_right _ _, haccepted⟩
    | emit bytes =>
      rw [edit, List.length_append, hsize]
      exact ⟨haccepted.2, h'⟩
    | patch offset bytes =>
      change offset + bytes.length ≤ a.size at haccepted
      simp only [edit, limit, List.length_append, List.length_take, List.length_drop, hsize]
      omega
    | takeOverflow => exact ⟨hsize ▸ h, h'⟩
    | truncate offset =>
      simp only [edit, limit, List.length_take, hsize]
      omega
    | reset => exact ⟨Nat.zero_le _, Nat.le_refl _⟩
  · simp only [if_neg haccepted]
    exact ⟨hsize ▸ h, h'⟩

end Operation

/-! ## Histories -/

/-- The arena after a history of operations, the oldest first. -/
def after (a : Arena) (history : List Operation) : Arena :=
  history.foldl (fun a op => (op.perform a).2) a

/-- The operations of a history that the arena accepts. -/
def accepted : Arena → List Operation → List Operation
  | _, [] => []
  | a, op :: rest =>
    let later := accepted (op.perform a).2 rest
    if op.Accepted a then op :: later else later

theorem capacity_after (a : Arena) (history : List Operation) :
    (a.after history).capacity = a.capacity := by
  induction history generalizing a with
  | nil => rfl
  | cons op rest ih =>
    have hop : (op.perform a).2.capacity = a.capacity := by rw [op.perform_snd]
    exact (ih _).trans hop

theorem within_after {a : Arena} (history : List Operation) (h : a.size ≤ a.limit)
    (h' : a.limit ≤ a.capacity) :
    (a.after history).size ≤ (a.after history).limit ∧ (a.after history).limit ≤ a.capacity := by
  induction history generalizing a with
  | nil => exact ⟨h, h'⟩
  | cons op rest ih =>
    have hcapacity : (op.perform a).2.capacity = a.capacity := capacity_after a [op]
    obtain ⟨hsize, hlimit⟩ := op.within_perform a h h'
    rw [← hcapacity] at hlimit ⊢
    exact ih hsize hlimit

/-- The bytes after a history are those of the accepted operations, one after the other. -/
theorem toList_written_after (a : Arena) (history : List Operation) :
    (a.after history).written.toList =
      (accepted a history).foldl (fun bytes op => op.edit bytes) a.written.toList := by
  induction history generalizing a with
  | nil => rfl
  | cons op rest ih =>
    have hop : (op.perform a).2.written.toList =
        if op.Accepted a then op.edit a.written.toList else a.written.toList :=
      congrArg (·.written.toList) (op.perform_snd a)
    change ((op.perform a).2.after rest).written.toList = _
    rw [ih, hop, accepted]
    by_cases h : op.Accepted a
    · simp only [if_pos h, List.foldl_cons]
    · simp only [if_neg h]

/-- Bytes that would pass the limit are dropped, and later operations go on without them. -/
example :
    accepted (blank 8) [.reserve 4, .emit [1, 2, 3], .emit [4, 5], .patch 1 [6], .truncate 2] =
      [.reserve 4, .emit [1, 2, 3], .patch 1 [6], .truncate 2] := by
  decide

/-- An overflow is pending if it was from the start, or if bytes were dropped, and in either case it
was not settled since. -/
theorem overflowed_after_iff (a : Arena) (history : List Operation) :
    (a.after history).overflowed = true ↔
      (a.overflowed = true ∧ ∀ op ∈ history, ¬op.Settles) ∨
      ∃ earlier bytes later, history = earlier ++ .emit bytes :: later ∧
        ¬(Operation.emit bytes).Accepted (a.after earlier) ∧ ∀ op ∈ later, ¬op.Settles := by
  induction history generalizing a with
  | nil => simp [after]
  | cons op rest ih =>
    have hop : (op.perform a).2.overflowed = op.overflows a :=
      congrArg overflowed (op.perform_snd a)
    change ((op.perform a).2.after rest).overflowed = true ↔ _
    rw [ih, hop, op.overflows_iff, List.forall_mem_cons]
    -- The dropped bytes are those of this very operation, or of a later one.
    constructor
    · rintro (⟨⟨bytes, rfl, hdropped⟩ | ⟨hpending, hop⟩, hrest⟩ |
        ⟨earlier, bytes, later, rfl, hdropped, hlater⟩)
      · exact .inr ⟨[], bytes, rest, rfl, hdropped, hrest⟩
      · exact .inl ⟨hpending, hop, hrest⟩
      · exact .inr ⟨op :: earlier, bytes, later, rfl, hdropped, hlater⟩
    · rintro (⟨hpending, hop, hrest⟩ | ⟨earlier, bytes, later, heq, hdropped, hlater⟩)
      · exact .inl ⟨.inr ⟨hpending, hop⟩, hrest⟩
      · cases earlier with
        | nil =>
          obtain ⟨rfl, rfl⟩ := List.cons_eq_cons.1 heq
          exact .inl ⟨.inl ⟨bytes, rfl, hdropped⟩, hlater⟩
        | cons first earlier =>
          obtain ⟨rfl, rfl⟩ := List.cons_eq_cons.1 heq
          exact .inr ⟨earlier, bytes, later, rfl, hdropped, hlater⟩

/-- After any history, an arena is within its limit and its capacity, holds the bytes of the
accepted operations and no others, and has an overflow pending exactly if bytes were dropped since
the last time that one was settled. What is asked of it next is answered, and done if it is
accepted; if not, it changes no byte and no limit. -/
theorem refines_bytes (capacity : Nat) (history : List Operation) :
    let a := (blank capacity).after history
    (a.capacity = capacity ∧ a.size ≤ a.limit ∧ a.limit ≤ capacity ∧
      a.spaceLeft = capacity - a.size) ∧
    a.written.toList =
      (accepted (blank capacity) history).foldl (fun bytes op => op.edit bytes) [] ∧
    (a.overflowed = true ↔
      ∃ earlier bytes later, history = earlier ++ .emit bytes :: later ∧
        ¬(Operation.emit bytes).Accepted ((blank capacity).after earlier) ∧
        ∀ op ∈ later, ¬op.Settles) ∧
    ∀ op : Operation,
      (op.perform a).1 = op.answer a ∧
      (op.perform a).2.written.toList =
        (if op.Accepted a then op.edit a.written.toList else a.written.toList) ∧
      (op.perform a).2.limit = if op.Accepted a then op.limit a else a.limit := by
  intro a
  have hcapacity : a.capacity = capacity := capacity_after _ history
  obtain ⟨hsize, hlimit⟩ :=
    within_after (a := blank capacity) history (Nat.zero_le _) (Nat.le_refl _)
  refine ⟨⟨hcapacity, hsize, hlimit, ?_⟩, toList_written_after _ history, ?_, fun op => ?_⟩
  · rw [spaceLeft, hcapacity]
  · have hclean : ¬((blank capacity).overflowed = true ∧ ∀ op ∈ history, ¬op.Settles) :=
      fun h => Bool.false_ne_true h.1
    exact (overflowed_after_iff _ history).trans (or_iff_right hclean)
  · refine ⟨op.perform_fst a, ?_, ?_⟩
    · rw [op.perform_snd]
    · rw [op.perform_snd]

end Arena

end Recompiler
