import Recompiler.Proofs.Word

/-!
# Writing code

What appending and overwriting do to the bytes of an arena.

* `Arena.append`: the bytes of an arena with more of them behind; what `Arena.emit`, `Arena.write`
  and `Arena.align` come to as long as nothing is dropped.
* `Arena.getElem?_overwrite`: the bytes after a run of them was overwritten.
* `Arena.Extends`, `Arena.Appends`: one arena is another after more was written, with the bytes
  before overwritten or not.
* `Assembly.extends_assemble`: assembling keeps to the limit.
-/

namespace Recompiler

namespace Arena

/-! ## Appending -/

/-- The arena with bytes behind the others, whether or not they fit. -/
def append (a : Arena) (bytes : List UInt8) : Arena :=
  { a with written := a.written ++ bytes }

@[simp] theorem size_append (a : Arena) (bytes : List UInt8) :
    (a.append bytes).size = a.size + bytes.length := by
  simp [append, size, ← Array.length_toList]

@[simp] theorem overflowed_append (a : Arena) (bytes : List UInt8) :
    (a.append bytes).overflowed = a.overflowed := rfl

@[simp] theorem append_nil (a : Arena) : a.append [] = a := by
  simp [append]

theorem append_append (a : Arena) (bytes more : List UInt8) :
    (a.append bytes).append more = a.append (bytes ++ more) := by
  simp only [append, mk.injEq, true_and, and_true]
  apply Array.ext'
  simp

theorem getElem?_append (a : Arena) (bytes : List UInt8) (i : Nat) :
    (a.append bytes).written[i]? =
      if i < a.size then a.written[i]? else bytes[i - a.size]? := by
  simp only [append, size, ← Array.getElem?_toList, Array.toList_appendList,
    List.getElem?_append, Array.length_toList]

/-- An arena that dropped bytes drops everything else. -/
theorem emit_of_overflowed {a : Arena} (h : a.overflowed = true) (bytes : List UInt8) :
    a.emit bytes = a := by
  obtain ⟨capacity, written, limit, overflowed⟩ := a
  simp only at h
  simp [emit, h]

/-- Nothing is dropped exactly when nothing was dropped before and the bytes fit. -/
theorem overflowed_emit_eq_false {a : Arena} {bytes : List UInt8} :
    (a.emit bytes).overflowed = false ↔
      a.overflowed = false ∧ a.size + bytes.length ≤ a.limit := by
  unfold emit
  split
  · next h =>
    refine ⟨fun h' => absurd h' (by simp), fun ⟨ha, hfits⟩ => ?_⟩
    rcases h with h | h
    · simp [ha] at h
    · omega
  · next h =>
    obtain ⟨hflag, hfits⟩ := not_or.1 h
    exact ⟨fun _ => ⟨by simpa using hflag, by omega⟩, fun h => h.1⟩

theorem emit_of_fits {a : Arena} {bytes : List UInt8} (h : a.overflowed = false)
    (h' : a.size + bytes.length ≤ a.limit) : a.emit bytes = a.append bytes := by
  simp [emit, append, h, Nat.not_lt.mpr h']

/-- Bytes of which none was dropped stand behind the others. -/
theorem emit_eq_append {a : Arena} {bytes : List UInt8} (h : (a.emit bytes).overflowed = false) :
    a.emit bytes = a.append bytes ∧ a.overflowed = false := by
  obtain ⟨h, h'⟩ := overflowed_emit_eq_false.1 h
  exact ⟨emit_of_fits h h', h⟩

theorem foldl_emit_eq_append {a : Arena} {pieces : List (List UInt8)}
    (h : (pieces.foldl emit a).overflowed = false) :
    pieces.foldl emit a = a.append pieces.flatten ∧ a.overflowed = false := by
  induction pieces generalizing a with
  | nil => exact ⟨(append_nil a).symm, h⟩
  | cons piece rest ih =>
    obtain ⟨hrest, hpiece⟩ := ih h
    obtain ⟨hemit, ha⟩ := emit_eq_append hpiece
    refine ⟨?_, ha⟩
    rw [List.foldl_cons, hrest, hemit, append_append, List.flatten_cons]

/-- An instruction of which nothing was dropped stands behind the other code. -/
theorem write_eq_append {a : Arena} {i : HostInstruction} (h : (a.write i).overflowed = false) :
    a.write i = a.append i.encode ∧ a.overflowed = false :=
  foldl_emit_eq_append h

theorem jumpTo_eq_append {a : Arena} {target : Nat} (h : (a.jumpTo target).overflowed = false) :
    a.jumpTo target =
        a.append (HostInstruction.jump (jumpDistance target (a.size + 5))).encode ∧
      a.overflowed = false :=
  write_eq_append h

theorem jumpIfTo_eq_append {a : Arena} {c : Condition} {target : Nat}
    (h : (a.jumpIfTo c target).overflowed = false) :
    a.jumpIfTo c target =
        a.append (HostInstruction.jumpIf c (jumpDistance target (a.size + 6))).encode ∧
      a.overflowed = false :=
  write_eq_append h

/-- Filler that does not overflow is as long as asked for. -/
theorem fill_eq_append {a : Arena} {count : Nat} (h : (fill count a).overflowed = false) :
    fill count a = a.append (List.replicate count 0xCC) ∧ a.overflowed = false := by
  induction count generalizing a with
  | zero => exact ⟨(append_nil a).symm, h⟩
  | succ count ih =>
    simp only [fill] at h ⊢
    split at h
    · next hsize =>
      obtain ⟨happend, -⟩ := write_eq_append h
      have := congrArg size happend
      simp [HostInstruction.encode, HostInstruction.pieces] at this
      omega
    · next hsize =>
      rw [if_neg hsize]
      obtain ⟨hrest, hone⟩ := ih h
      obtain ⟨hwrite, ha⟩ := write_eq_append hone
      refine ⟨?_, ha⟩
      rw [hrest, hwrite, append_append]
      rfl

theorem align_eq_append {a : Arena} {alignment : Nat}
    (h : (a.align alignment).overflowed = false) :
    a.align alignment =
        a.append (List.replicate ((alignment - a.size % alignment) % alignment) 0xCC) ∧
      a.overflowed = false :=
  fill_eq_append h

/-! ## Overwriting -/

theorem getElem?_overwrite (written : Array UInt8) (offset : Nat) (bytes : List UInt8) (i : Nat) :
    (overwrite written offset bytes)[i]? =
      if offset ≤ i ∧ i < offset + bytes.length ∧ i < written.size then bytes[i - offset]?
      else written[i]? := by
  induction bytes generalizing written offset with
  | nil => simp [overwrite]; omega
  | cons b rest ih =>
    rw [overwrite, ih]
    simp only [Array.size_setIfInBounds, Array.getElem?_setIfInBounds, List.length_cons]
    by_cases hi : offset = i
    · subst hi
      rw [if_neg (by omega), if_pos rfl, Nat.sub_self, List.getElem?_cons_zero]
      by_cases hsize : offset < written.size
      · rw [if_pos hsize, if_pos (by omega)]
      · rw [if_neg hsize, if_neg (by omega), Array.getElem?_eq_none (by omega)]
    · rw [if_neg hi]
      by_cases hrange : offset + 1 ≤ i ∧ i < offset + 1 + rest.length ∧ i < written.size
      · rw [if_pos hrange, if_pos (by omega), show i - offset = (i - (offset + 1)) + 1 by omega,
          List.getElem?_cons_succ]
      · rw [if_neg hrange, if_neg (by omega)]

theorem getElem?_overwrite_of_lt {written : Array UInt8} {offset i : Nat} (bytes : List UInt8)
    (h : i < offset) : (overwrite written offset bytes)[i]? = written[i]? := by
  rw [getElem?_overwrite, if_neg (by omega)]

theorem getElem?_overwrite_of_le {written : Array UInt8} {offset i : Nat} {bytes : List UInt8}
    (h : offset + bytes.length ≤ i) : (overwrite written offset bytes)[i]? = written[i]? := by
  rw [getElem?_overwrite, if_neg (by omega)]

theorem getElem?_overwrite_add {written : Array UInt8} {offset i : Nat} {bytes : List UInt8}
    (h : i < bytes.length) (h' : offset + bytes.length ≤ written.size) :
    (overwrite written offset bytes)[offset + i]? = bytes[i]? := by
  rw [getElem?_overwrite, if_pos (by omega), Nat.add_sub_cancel_left]

/-- Overwriting a run of bytes once more leaves only what was written last. -/
theorem overwrite_overwrite (written : Array UInt8) (offset : Nat) {bytes more : List UInt8}
    (h : more.length = bytes.length) :
    overwrite (overwrite written offset bytes) offset more = overwrite written offset more := by
  apply Array.ext_getElem?
  intro i
  simp only [getElem?_overwrite, size_overwrite, h]
  split <;> rfl

@[simp] theorem length_wordBytes (w : UInt32) : (Word.bytes w).length = 4 := rfl

/-- A patch replaces bytes and nothing else. -/
theorem patch_snd (a : Arena) (offset : Nat) (bytes : List UInt8) :
    (a.patch offset bytes).2 =
      { a with written :=
          if offset + bytes.length ≤ a.size then overwrite a.written offset bytes
          else a.written } := by
  unfold patch
  split <;> rfl

@[simp] theorem overflowed_bind (a : Arena) (stop : Nat) :
    (a.bind stop).overflowed = a.overflowed := by
  simp [bind, patch_snd]

@[simp] theorem limit_bind (a : Arena) (stop : Nat) : (a.bind stop).limit = a.limit := by
  simp [bind, patch_snd]

@[simp] theorem capacity_bind (a : Arena) (stop : Nat) : (a.bind stop).capacity = a.capacity := by
  simp [bind, patch_snd]

@[simp] theorem size_bind (a : Arena) (stop : Nat) : (a.bind stop).size = a.size :=
  size_patch a _ _

/-- Where the distance of a jump that ends at `stop` is written. -/
theorem bindOffset_eq {stop : Nat} (h : 4 ≤ stop) (h' : stop < UInt64.size) :
    (stop.toUInt64 - 4).toNat = stop - 4 := by
  have hstop : stop.toUInt64.toNat = stop := toNat_toUInt64 h'
  rw [UInt64.toNat_sub_of_le]
  · rw [hstop]; rfl
  · rw [UInt64.le_iff_toNat_le, hstop]; exact h

/-- Where the distance of a jump of five bytes at `start` is written. -/
theorem patchOffset_eq {start : Nat} (h : start + 1 < UInt64.size) :
    (start.toUInt64 + 1).toNat = start + 1 := by
  rw [UInt64.toNat_add, toNat_toUInt64 (by omega)]
  exact Nat.mod_eq_of_lt h

/-- Binding a jump that lies in the written code overwrites its last four bytes. -/
theorem written_bind {a : Arena} {stop : Nat} (h : 4 ≤ stop) (h' : stop ≤ a.size)
    (h64 : a.size < UInt64.size) :
    (a.bind stop).written =
      overwrite a.written (stop - 4) (Word.bytes (jumpDistance a.size stop)) := by
  simp only [bind, patch_snd, bindOffset_eq h (Nat.lt_of_le_of_lt h' h64)]
  exact if_pos (by rw [length_wordBytes]; omega)

/-! ## Room -/

/-- `b` is `a` after more was written: nothing passed the limit, and what was dropped is
remembered. -/
structure Extends (a b : Arena) : Prop where
  capacity : b.capacity = a.capacity
  limit : b.limit = a.limit
  size_le : a.size ≤ b.size
  within : a.size ≤ a.limit → b.size ≤ b.limit
  clean : b.overflowed = false → a.overflowed = false

/-- `b` is `a` with more behind it, as far as there was room. -/
structure Appends (a b : Arena) : Prop extends Extends a b where
  kept : ∀ i < a.size, b.written[i]? = a.written[i]?
  dropped : a.overflowed = true → b = a

namespace Extends

variable {a b c : Arena}

theorem refl (a : Arena) : a.Extends a :=
  ⟨rfl, rfl, Nat.le_refl _, id, id⟩

theorem trans (h : a.Extends b) (h' : b.Extends c) : a.Extends c where
  capacity := h'.capacity.trans h.capacity
  limit := h'.limit.trans h.limit
  size_le := Nat.le_trans h.size_le h'.size_le
  within := h'.within ∘ h.within
  clean := h.clean ∘ h'.clean

/-- Binding a jump overwrites, and takes no room. -/
theorem bind (a : Arena) (stop : Nat) : a.Extends (a.bind stop) := by
  refine ⟨capacity_bind a stop, limit_bind a stop, ?_, fun h => ?_, fun h => ?_⟩
  · exact Nat.le_of_eq (size_bind a stop).symm
  · rwa [size_bind, limit_bind]
  · rwa [overflowed_bind] at h

end Extends

namespace Appends

variable {a b c : Arena}

theorem refl (a : Arena) : a.Appends a :=
  ⟨.refl a, fun _ _ => rfl, fun _ => rfl⟩

theorem trans (h : a.Appends b) (h' : b.Appends c) : a.Appends c where
  toExtends := h.toExtends.trans h'.toExtends
  kept i hi := (h'.kept i (Nat.lt_of_lt_of_le hi h.size_le)).trans (h.kept i hi)
  dropped ha := by
    obtain rfl := h.dropped ha
    exact h'.dropped ha

theorem emit (a : Arena) (bytes : List UInt8) : a.Appends (a.emit bytes) := by
  unfold Arena.emit
  split
  · refine ⟨⟨rfl, rfl, Nat.le_refl _, id, fun h => by cases h⟩, fun _ _ => rfl, fun h => ?_⟩
    obtain ⟨capacity, written, limit, overflowed⟩ := a
    exact congrArg (Arena.mk capacity written limit) h.symm
  · next h =>
    obtain ⟨hclean, hfits⟩ := not_or.1 h
    have hsize : (a.append bytes).size = a.size + bytes.length := size_append a bytes
    refine ⟨⟨rfl, rfl, ?_, fun _ => ?_, id⟩, fun i hi => ?_, fun h => absurd h hclean⟩
    · exact Nat.le_trans (Nat.le_add_right _ _) (Nat.le_of_eq hsize.symm)
    · exact Nat.le_trans (Nat.le_of_eq hsize) (Nat.not_lt.1 hfits)
    · exact (getElem?_append a bytes i).trans (if_pos hi)

theorem foldl {γ : Type} {f : Arena → γ → Arena} (hf : ∀ a x, Appends a (f a x)) (a : Arena)
    (xs : List γ) : a.Appends (xs.foldl f a) := by
  induction xs generalizing a with
  | nil => exact refl a
  | cons x rest ih => exact (hf a x).trans (ih _)

theorem write (a : Arena) (i : HostInstruction) : a.Appends (a.write i) :=
  foldl emit a _

theorem writeAll (a : Arena) (is : List HostInstruction) : a.Appends (a.writeAll is) :=
  foldl write a _

theorem jumpTo (a : Arena) (target : Nat) : a.Appends (a.jumpTo target) :=
  write a _

theorem jumpIfTo (a : Arena) (c : Condition) (target : Nat) : a.Appends (a.jumpIfTo c target) :=
  write a _

theorem jump (a : Arena) : a.Appends a.jump.2 :=
  emit a _

theorem jumpIf (a : Arena) (c : Condition) : a.Appends (a.jumpIf c).2 :=
  emit a _

theorem fill (a : Arena) (count : Nat) : a.Appends (fill count a) := by
  induction count generalizing a with
  | zero => exact refl a
  | succ count ih =>
    simp only [Arena.fill]
    split
    · exact write a _
    · exact (write a _).trans (ih _)

theorem align (a : Arena) (alignment : Nat) : a.Appends (a.align alignment) :=
  fill a _

end Appends

@[simp] theorem limit_emit (a : Arena) (bytes : List UInt8) : (a.emit bytes).limit = a.limit :=
  (Appends.emit a bytes).limit

@[simp] theorem limit_write (a : Arena) (i : HostInstruction) : (a.write i).limit = a.limit :=
  (Appends.write a i).limit

@[simp] theorem limit_writeAll (a : Arena) (is : List HostInstruction) :
    (a.writeAll is).limit = a.limit :=
  (Appends.writeAll a is).limit

@[simp] theorem limit_jumpIf (a : Arena) (c : Condition) : (a.jumpIf c).2.limit = a.limit :=
  (Appends.jumpIf a c).limit

@[simp] theorem limit_align (a : Arena) (alignment : Nat) :
    (a.align alignment).limit = a.limit :=
  (Appends.align a alignment).limit

end Arena

/-! ## Assemblies -/

namespace Assembly

theorem code_step_bind (s : Assembly) (label : Nat) :
    (s.step (.bind label)).code =
      match s.pending.lookup label with
      | some stop => s.code.bind stop
      | none => s.code := by
  obtain ⟨code, pending, exits, entry⟩ := s
  rcases h : pending.lookup label with _ | stop <;> simp only [step, h]

/-- A step appends, unless it binds a label. -/
theorem appends_step {item : Item} (s : Assembly) (h : ∀ label, item ≠ .bind label) :
    s.code.Appends (s.step item).code := by
  obtain ⟨code, pending, exits, entry⟩ := s
  cases item with
  | instruction i => exact .write code i
  | jump label => exact .jump code
  | jumpIf c label => exact .jumpIf code c
  | bind label => exact absurd rfl (h label)
  | jumpTo target => exact .jumpTo code target
  | jumpIfTo c target => exact .jumpIfTo code c target
  | leave target destination linked => exact .jumpTo code _
  | entry => exact .refl code
  | align alignment => exact .align code alignment

theorem extends_step (s : Assembly) (item : Item) : s.code.Extends (s.step item).code := by
  by_cases h : ∃ label, item = .bind label
  · obtain ⟨label, rfl⟩ := h
    rw [code_step_bind]
    split
    · exact .bind _ _
    · exact .refl _
  · exact (appends_step s fun label heq => h ⟨label, heq⟩).toExtends

theorem extends_foldl (s : Assembly) (items : List Item) :
    s.code.Extends (items.foldl step s).code := by
  induction items generalizing s with
  | nil => exact .refl _
  | cons item rest ih => exact (extends_step s item).trans (ih _)

theorem assemble_eq_foldl (a : Arena) (items : Array Item) :
    a.assemble items = items.toList.foldl step (start a) := by
  rw [Arena.assemble, ← Array.foldl_toList]

/-- Assembling keeps to the limit. -/
theorem extends_assemble (a : Arena) (items : Array Item) :
    a.Extends (a.assemble items).code := by
  rw [assemble_eq_foldl]
  exact extends_foldl (start a) items.toList

end Assembly

end Recompiler
