import Recompiler.Proofs.Code.Layout
import Recompiler.Proofs.Host.Format

/-!
# Jumps in an arena

A jump is known by the offset of its end, in front of which its distance is written. Binding it and
patching it are one operation, which overwrites the distance and nothing else.

* `Arena.redirect`: what binding a jump and patching it come to.
* `Arena.Redirects`: two arenas that differ in the distance of one jump.
* `Jump`, `Jump.Lies`: a jump, and the bytes that it should have.
* `Jump.Leads`, `Jump.Lies.leads`: what is read where a jump lies.
-/

namespace Recompiler

/-! ## Sending a jump elsewhere -/

namespace Arena

variable {a b : Arena} {stop target : Nat}

/-- The arena with the jump that ends at `stop` sent to `target`, if all of it is written. -/
def redirect (a : Arena) (stop target : Nat) : Arena :=
  (a.patch (stop - 4) (Word.bytes (jumpDistance target stop))).2

theorem bind_eq_redirect (a : Arena) (h : 4 ≤ stop) (h' : stop < UInt64.size) :
    a.bind stop = a.redirect stop a.size := by
  rw [bind, bindOffset_eq h h', redirect]

theorem patchJump_eq_redirect (a : Arena) {start : Nat} (target : Nat)
    (h : start + 1 < UInt64.size) :
    (a.patchJump start target).2 = a.redirect (start + 5) target := by
  rw [patchJump, patchOffset_eq h]
  rfl

/-- Nothing is written for a jump that is not in the written code. -/
theorem redirect_of_lt (h : a.size < stop) : a.redirect stop target = a := by
  rw [redirect, patch, if_neg (by rw [length_wordBytes]; omega)]

/-- `b` is `a` but for the four bytes in which the jump that ends at `stop` has its distance. -/
structure Redirects (stop : Nat) (a b : Arena) : Prop where
  others : b = { a with written := b.written }
  size : b.size = a.size
  kept : ∀ i, i + 4 < stop ∨ stop ≤ i → b.written[i]? = a.written[i]?

theorem Redirects.limit (h : a.Redirects stop b) : b.limit = a.limit := by
  rw [h.others]

theorem Redirects.capacity (h : a.Redirects stop b) : b.capacity = a.capacity := by
  rw [h.others]

theorem redirects_redirect (a : Arena) (h : 4 ≤ stop) (target : Nat) :
    a.Redirects stop (a.redirect stop target) where
  others := by simp only [redirect, patch_snd]
  size := size_patch a _ _
  kept i hi := by
    simp only [redirect, patch_snd]
    split
    · rw [getElem?_overwrite, if_neg (by rw [length_wordBytes]; omega)]
    · rfl

/-- The new distance stands in front of the end of the jump. -/
theorem hasBytes_redirect (h : 4 ≤ stop) (h' : stop ≤ a.size) (target : Nat) :
    HasBytes (a.redirect stop target).written (stop - 4)
      (Word.bytes (jumpDistance target stop)) := by
  have hfits : stop - 4 + (Word.bytes (jumpDistance target stop)).length ≤ a.size := by
    rw [length_wordBytes]
    omega
  rw [redirect, patch, if_pos hfits]
  exact hasBytes_overwrite hfits

/-- Where the jump that ends at `stop` goes: its last four bytes are the distance from its end, a
signed number. -/
def landing (a : Arena) (stop : Nat) : Int :=
  stop + Word.toInt (Word.ofBytes (a.bytes (stop - 4) 4))

end Arena

/-! ## Jumps -/

/-- A jump in an arena. -/
structure Jump where
  /-- Where it is taken, if not everywhere. -/
  condition : Option Condition
  /-- The offset of its end, by which it is known. -/
  stop : Nat
  /-- The offset that it was sent to last. -/
  target : Nat
  deriving DecidableEq, Repr

namespace Jump

variable {j : Jump} {a b : Arena}

/-- What is done by the jump. -/
def operation (j : Jump) : Operation :=
  match j.condition with
  | none => .jump
  | some c => .jumpIf c

/-- The instruction that covers the distance to the target. -/
def instruction (j : Jump) : HostInstruction :=
  match j.condition with
  | none => .jump (jumpDistance j.target j.stop)
  | some c => .jumpIf c (jumpDistance j.target j.stop)

/-- What stands in front of the distance. -/
def opcode (j : Jump) : List UInt8 :=
  match j.condition with
  | none => [0xE9]
  | some c => [0x0F, 0x80 ||| c.code]

/-- The number of bytes. -/
def length (j : Jump) : Nat :=
  j.opcode.length + 4

/-- The offset of the first byte. -/
def start (j : Jump) : Nat :=
  j.stop - j.length

/-- The jump after the one that ends at `stop` was sent to `target`. -/
def sent (stop target : Nat) (j : Jump) : Jump :=
  if j.stop = stop then { j with target := target } else j

@[simp] theorem stop_sent (stop target : Nat) (j : Jump) : (j.sent stop target).stop = j.stop := by
  unfold sent
  split <;> rfl

@[simp] theorem start_sent (stop target : Nat) (j : Jump) :
    (j.sent stop target).start = j.start := by
  unfold sent
  split <;> rfl

theorem encode_instruction (j : Jump) :
    j.instruction.encode = j.opcode ++ Word.bytes (jumpDistance j.target j.stop) := by
  rw [instruction, opcode]
  split <;> rfl

theorem length_encode_instruction (j : Jump) : j.instruction.encode.length = j.length := by
  rw [encode_instruction, List.length_append]
  rfl

theorem valid_instruction (j : Jump) : j.instruction.Valid := by
  rw [instruction]
  split <;> trivial

theorem asMachine_instruction (j : Jump) :
    j.instruction.asMachine =
      ⟨j.operation, .wide, [.distance (Word.toInt (jumpDistance j.target j.stop))]⟩ := by
  rw [instruction, operation]
  split <;> rfl

/-- The arena sends the jump to its target: the last four bytes say so, and all its bytes together
are read, by the rules of the instruction format, as the jump over that distance. -/
structure Leads (j : Jump) (a : Arena) : Prop where
  landing : a.landing j.stop = j.target
  read : MachineInstruction.read? (a.window j.start j.length) =
    some (⟨j.operation, .wide, [.distance ((j.target : Int) - j.stop)]⟩, [])

/-- The jump is written where it should be. -/
structure Lies (j : Jump) (a : Arena) : Prop where
  length_le : j.length ≤ j.stop
  stop_le : j.stop ≤ a.size
  target_le : j.target ≤ a.capacity
  bytes : HasBytes a.written j.start j.instruction.encode

namespace Lies

theorem four_le (h : j.Lies a) : 4 ≤ j.stop :=
  Nat.le_trans (Nat.le_add_left 4 _) h.length_le

/-- The distance stands behind the opcode. -/
theorem start_add (h : j.Lies a) : j.start + j.opcode.length = j.stop - 4 := by
  have := h.length_le
  simp only [start, length] at this ⊢
  omega

/-- A jump lies where it lay while other code is written behind it. -/
theorem of_appends (h : j.Lies a) (hab : a.Appends b) : j.Lies b where
  length_le := h.length_le
  stop_le := Nat.le_trans h.stop_le hab.size_le
  target_le := hab.capacity ▸ h.target_le
  bytes := h.bytes.of_eq fun i _ hi => by
    rw [length_encode_instruction, start] at hi
    have := h.length_le
    have := h.stop_le
    exact hab.kept i (by omega)

/-- A jump stays as it is while another is redirected. -/
theorem of_redirects {stop : Nat} (h : j.Lies a) (hab : a.Redirects stop b)
    (hother : stop ≤ j.start ∨ j.stop + 4 ≤ stop) : j.Lies b where
  length_le := h.length_le
  stop_le := hab.size ▸ h.stop_le
  target_le := hab.capacity ▸ h.target_le
  bytes := h.bytes.of_eq fun i hi hi' => by
    have := h.length_le
    rw [length_encode_instruction] at hi'
    rw [start] at hi hi' hother
    exact hab.kept i (by omega)

/-- A jump that is redirected keeps its opcode and gets another distance. -/
theorem redirect (h : j.Lies a) {target : Nat} (htarget : target ≤ a.capacity) :
    Lies { j with target := target } (a.redirect j.stop target) := by
  have hredirects := a.redirects_redirect h.four_le target
  refine ⟨h.length_le, ?_, ?_, ?_⟩
  · rw [hredirects.size]
    exact h.stop_le
  · rw [hredirects.capacity]
    exact htarget
  · have hbytes := h.bytes
    rw [encode_instruction, HasBytes.append_iff] at hbytes ⊢
    refine ⟨hbytes.1.of_eq fun i _ hi => hredirects.kept i ?_, ?_⟩
    · change i < j.start + j.opcode.length at hi
      have := h.start_add
      omega
    · change HasBytes _ (j.start + j.opcode.length) _
      rw [h.start_add]
      exact Arena.hasBytes_redirect h.four_le h.stop_le target

/-- In an arena of two gibibytes or less, a jump leads to its target. -/
theorem leads (h : j.Lies a) (hsize : a.size ≤ 0x80000000) (hcapacity : a.capacity ≤ 0x80000000) :
    j.Leads a := by
  have hlong := h.length_le
  have hstop := h.stop_le
  have htarget := h.target_le
  have hpositive : 0 < j.length := Nat.succ_pos _
  have hdistance : (j.stop : Int) + Word.toInt (jumpDistance j.target j.stop) = j.target :=
    toInt_jumpDistance (by omega) (by omega)
  refine ⟨?_, ?_⟩
  · have hbytes := h.bytes
    rw [encode_instruction, HasBytes.append_iff, h.start_add] at hbytes
    have hlast : a.bytes (j.stop - 4) 4 = Word.bytes (jumpDistance j.target j.stop) :=
      hbytes.2.bytes_eq (by change j.stop - 4 + 4 < 2 ^ 64; omega)
    rw [Arena.landing, hlast, Word.ofBytes_bytes, hdistance]
  · have hwindow := h.bytes.window_eq
    have hread := MachineInstruction.read?_encode j.valid_instruction []
    rw [List.append_nil, asMachine_instruction] at hread
    rw [length_encode_instruction] at hwindow
    have hcover : Word.toInt (jumpDistance j.target j.stop) = (j.target : Int) - j.stop := by
      omega
    rw [hwindow, hread, hcover]

end Lies

end Jump

end Recompiler
