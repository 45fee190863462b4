import Recompiler.Code.Stubs
import Recompiler.Proofs.Code.Writing

/-!
# The stubs are always the same

Every arena with room for the stubs gets the same bytes at the same offsets.

* `Stubs.standard`, `Stubs.code`: the offsets and the bytes.
* `Arena.relax`: an arena with more room, on which everything that fits goes on the same.
* `Stubs.generate_blank`: the stubs of a blank arena.
-/

namespace Recompiler

namespace Arena

/-- The arena with another capacity and nothing reserved. -/
def relax (a : Arena) (capacity : Nat) : Arena :=
  { a with capacity := capacity, limit := capacity }

variable {a : Arena} {capacity : Nat}

@[simp] theorem size_relax : (a.relax capacity).size = a.size := rfl

theorem relax_append (bytes : List UInt8) :
    (a.relax capacity).append bytes = (a.append bytes).relax capacity := rfl

/-- Bytes that fit before fit when there is more room. -/
theorem emit_relax {bytes : List UInt8} (h : (a.emit bytes).overflowed = false)
    (hroom : a.limit ≤ capacity) :
    (a.relax capacity).emit bytes = (a.emit bytes).relax capacity := by
  obtain ⟨hclean, hfits⟩ := overflowed_emit_eq_false.1 h
  rw [(emit_eq_append h).1, emit_of_fits (a := a.relax capacity) hclean, relax_append]
  exact Nat.le_trans hfits hroom

theorem foldl_emit_relax {pieces : List (List UInt8)}
    (h : (pieces.foldl emit a).overflowed = false) (hroom : a.limit ≤ capacity) :
    pieces.foldl emit (a.relax capacity) = (pieces.foldl emit a).relax capacity := by
  induction pieces generalizing a with
  | nil => rfl
  | cons piece rest ih =>
    have hpiece := (Appends.foldl Appends.emit _ rest).clean h
    rw [List.foldl_cons, List.foldl_cons, emit_relax hpiece hroom]
    exact ih h (by rwa [limit_emit])

theorem write_relax {i : HostInstruction} (h : (a.write i).overflowed = false)
    (hroom : a.limit ≤ capacity) : (a.relax capacity).write i = (a.write i).relax capacity :=
  foldl_emit_relax h hroom

theorem writeAll_relax {is : List HostInstruction} (h : (a.writeAll is).overflowed = false)
    (hroom : a.limit ≤ capacity) :
    (a.relax capacity).writeAll is = (a.writeAll is).relax capacity := by
  induction is generalizing a with
  | nil => rfl
  | cons i rest ih =>
    have hi : (a.write i).overflowed = false := (Appends.writeAll _ rest).clean h
    change ((a.relax capacity).write i).writeAll rest = _
    rw [write_relax hi hroom]
    exact ih h (by rwa [limit_write])

theorem jumpTo_relax {target : Nat} (h : (a.jumpTo target).overflowed = false)
    (hroom : a.limit ≤ capacity) :
    (a.relax capacity).jumpTo target = (a.jumpTo target).relax capacity :=
  write_relax h hroom

theorem jumpIf_relax {c : Condition} (h : (a.jumpIf c).2.overflowed = false)
    (hroom : a.limit ≤ capacity) :
    (a.relax capacity).jumpIf c = ((a.jumpIf c).1, (a.jumpIf c).2.relax capacity) := by
  simp only [jumpIf, emit_relax h hroom, size_relax]

theorem fill_relax {count : Nat} (h : (fill count a).overflowed = false)
    (hroom : a.limit ≤ capacity) :
    fill count (a.relax capacity) = (fill count a).relax capacity := by
  induction count generalizing a with
  | zero => rfl
  | succ count ih =>
    have htrap : (a.write .trap).overflowed = false := by
      simp only [fill] at h
      split at h
      · exact h
      · exact (Appends.fill _ count).clean h
    simp only [fill] at h ⊢
    rw [write_relax htrap hroom, size_relax, size_relax]
    split
    · rfl
    · next hsize =>
      rw [if_neg hsize] at h
      exact ih h (by rwa [limit_write])

theorem align_relax {alignment : Nat} (h : (a.align alignment).overflowed = false)
    (hroom : a.limit ≤ capacity) :
    (a.relax capacity).align alignment = (a.align alignment).relax capacity :=
  fill_relax h hroom

theorem bind_relax (stop : Nat) : (a.relax capacity).bind stop = (a.bind stop).relax capacity := by
  simp only [bind, patch_snd]
  rfl

end Arena

namespace Stubs

/-- The offsets of the stubs. -/
def standard : Stubs := ⟨16, 0, 62, 48, 82, 92⟩

/-- The number of bytes of the stubs. -/
def length : Nat := 112

/-- The bytes of the stubs. -/
def code : Array UInt8 :=
  (generate (Arena.blank length)).2.written

variable {a : Arena} {capacity : Nat}

theorem appends_returnWith (reason : ExitReason) (exit : Nat) (a : Arena) :
    a.Appends (returnWith reason exit a) :=
  (Arena.Appends.writeAll a _).trans (Arena.Appends.jumpTo _ exit)

@[simp] theorem limit_returnWith (reason : ExitReason) (exit : Nat) (a : Arena) :
    (returnWith reason exit a).limit = a.limit :=
  (appends_returnWith reason exit a).limit

theorem returnWith_relax {reason : ExitReason} {exit : Nat}
    (h : (returnWith reason exit a).overflowed = false) (hroom : a.limit ≤ capacity) :
    returnWith reason exit (a.relax capacity) = (returnWith reason exit a).relax capacity := by
  have hwrite := (Arena.Appends.jumpTo _ exit).clean h
  unfold returnWith
  rw [Arena.writeAll_relax hwrite hroom, Arena.jumpTo_relax h]
  rwa [Arena.limit_writeAll]

open Arena in
/-- Stubs that fit come out the same when there is more room. -/
theorem generate_relax (h : (generate a).2.overflowed = false) (hroom : a.limit ≤ capacity) :
    generate (a.relax capacity) = ((generate a).1, (generate a).2.relax capacity) := by
  unfold generate at h
  dsimp only at h
  -- Nothing was dropped at any point before, the last one first.
  have h10 := (Appends.align _ _).clean h
  have h9 := (appends_returnWith _ _ _).clean h10
  have h8 := (appends_returnWith _ _ _).clean h9
  have h7 := (appends_returnWith _ _ _).clean h8
  have h7 := (Extends.bind _ _).clean h7
  have h6 := (appends_returnWith _ _ _).clean h7
  have h5 := (Appends.jumpIf _ _).clean h6
  have h4 := (Appends.writeAll _ _).clean h5
  have h3 := (Appends.align _ _).clean h4
  have h2 := (Appends.writeAll _ _).clean h3
  have h1 := (Appends.align _ _).clean h2
  have h0 := (Appends.writeAll _ _).clean h1
  rw [generate, Arena.align_relax h0 hroom, Arena.writeAll_relax h1 (by simpa using hroom),
    Arena.align_relax h2 (by simpa using hroom), Arena.writeAll_relax h3 (by simpa using hroom),
    Arena.align_relax h4 (by simpa using hroom), Arena.writeAll_relax h5 (by simpa using hroom),
    Arena.jumpIf_relax h6 (by simpa using hroom)]
  simp only [Arena.size_relax]
  rw [returnWith_relax h7 (by simpa using hroom), Arena.bind_relax,
    returnWith_relax h8 (by simpa using hroom), returnWith_relax h9 (by simpa using hroom),
    returnWith_relax h10 (by simpa using hroom), Arena.align_relax h (by simpa using hroom)]
  simp only [generate, Arena.size_relax]

open Arena in
theorem extends_generate (a : Arena) : a.Extends (generate a).2 := by
  unfold generate
  dsimp only
  refine Extends.trans ?_ (Appends.align _ _).toExtends
  refine Extends.trans ?_ (appends_returnWith _ _ _).toExtends
  refine Extends.trans ?_ (appends_returnWith _ _ _).toExtends
  refine Extends.trans ?_ (appends_returnWith _ _ _).toExtends
  refine Extends.trans ?_ (Extends.bind _ _)
  refine Appends.toExtends (Appends.trans ?_ (appends_returnWith _ _ _))
  refine Appends.trans ?_ (Appends.jumpIf _ _)
  refine Appends.trans ?_ (Appends.writeAll _ _)
  refine Appends.trans ?_ (Appends.align _ _)
  refine Appends.trans ?_ (Appends.writeAll _ _)
  refine Appends.trans ?_ (Appends.align _ _)
  exact .trans (Appends.align _ _) (Appends.writeAll _ _)

private theorem generate_length :
    (generate (Arena.blank length)).1 = standard ∧
      (generate (Arena.blank length)).2.overflowed = false := by
  decide +kernel

theorem size_code : code.size = length := by
  decide +kernel

/-- Where the stubs fit, they do not depend on how much room there is. -/
theorem generate_blank {c : Nat} (h : length ≤ c) :
    generate (Arena.blank c) = (standard, { Arena.blank c with written := code }) := by
  obtain ⟨hstubs, hclean⟩ := generate_length
  refine (generate_relax (a := Arena.blank length) hclean h).trans (Prod.ext hstubs ?_)
  change Arena.mk c code c (generate (Arena.blank length)).2.overflowed = _
  rw [hclean]
  rfl

/-- The stubs need all of the room that they take. -/
theorem length_le_of_clean {c : Nat} (h : (generate (Arena.blank c)).2.overflowed = false) :
    length ≤ c := by
  refine Nat.not_lt.1 fun hlt => ?_
  have hsize := congrArg (fun r => r.2.size) (generate_relax h (Nat.le_of_lt hlt))
  simp only [Arena.size_relax] at hsize
  have hwithin := (extends_generate (Arena.blank c)).within (Nat.zero_le c)
  rw [(extends_generate (Arena.blank c)).limit, ← hsize] at hwithin
  exact Nat.not_lt.2 hwithin (Nat.lt_of_lt_of_eq hlt size_code.symm)

-- From here on nothing computes the bytes.
attribute [irreducible] code

end Stubs

end Recompiler
