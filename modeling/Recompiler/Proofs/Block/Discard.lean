import Recompiler.Proofs.Block.Compile
import Recompiler.Proofs.Code.Stubs

/-!
# Failed compilations

What a failed compilation leaves behind. Its block and its code are dropped, but jumps are bound
even while an arena drops code, and then the bytes that a binding overwrites need not be the
block's own.

* `Assembly.Above`: no binding reaches below a floor. The first instruction of a block puts four
  bytes between the two.
* `Arena.dent`: an arena whose last four bytes were overwritten by the distance zero.
* `Arena.assemble_of_cramped`: what assembling comes to when even the first instruction is dropped.
* `BlockTable.table_compile_error`: the table after a failed compilation.
-/

namespace Recompiler

namespace Arena

/-- The arena with the four bytes before its end cleared. -/
def dent (a : Arena) : Arena :=
  { a with written := overwrite a.written (a.size - 4) (Word.bytes 0) }

@[simp] theorem size_dent (a : Arena) : a.dent.size = a.size :=
  size_overwrite _ _ _

theorem dent_dent (a : Arena) : a.dent.dent = a.dent := by
  rw [dent, size_dent]
  exact congrArg (fun w => { a with written := w })
    (overwrite_overwrite a.written (a.size - 4) rfl)

theorem bind_size {a : Arena} (h : 4 ≤ a.size) (h64 : a.size < UInt64.size) :
    a.bind a.size = a.dent := by
  have hwritten := written_bind h (Nat.le_refl _) h64
  rw [jumpDistance_self] at hwritten
  rw [dent, ← hwritten]
  simp only [bind, patch_snd]

end Arena

namespace Assembly

variable {s : Assembly} {floor : Nat}

/-! ## Enough room for the first instruction -/

/-- Bindings reach no byte below `floor`: jumps to labels end at least four bytes above. -/
structure Above (floor : Nat) (s : Assembly) : Prop where
  room : s.code.size ≤ s.code.limit
  limit : s.code.limit < UInt64.size
  size : floor + 4 ≤ s.code.size
  pending : ∀ label stop, s.pending.lookup label = some stop →
    floor + 4 ≤ stop ∧ stop ≤ s.code.size

/-- A step of an assembly that stays above a floor stays above it. -/
theorem Above.step (h : s.Above floor) (item : Item) : (s.step item).Above floor where
  room := (extends_step s item).within h.room
  limit := (extends_step s item).limit ▸ h.limit
  size := Nat.le_trans h.size (extends_step s item).size_le
  pending label stop hlookup := by
    have hsize := (extends_step s item).size_le
    have hfloor := h.size
    rw [pending_step] at hlookup
    cases hlabel : item.jumpLabel? with
    | none =>
      rw [hlabel] at hlookup
      have := h.pending label stop hlookup
      omega
    | some new =>
      rw [hlabel, List.lookup_cons] at hlookup
      split at hlookup
      · cases hlookup
        omega
      · have := h.pending label stop hlookup
        omega

/-- The bytes below the floor stay. -/
theorem Above.written_step (h : s.Above floor) (item : Item) {i : Nat} (hi : i < floor) :
    (s.step item).code.written[i]? = s.code.written[i]? := by
  have hroom := h.room
  have hlimit := h.limit
  have hsize := h.size
  by_cases hbind : ∃ label, item = .bind label
  · obtain ⟨label, rfl⟩ := hbind
    rw [code_step_bind]
    cases hlookup : s.pending.lookup label with
    | none => rfl
    | some stop =>
      have hstop := h.pending label stop hlookup
      change (s.code.bind stop).written[i]? = _
      rw [Arena.written_bind (by omega) hstop.2 (by omega),
        Arena.getElem?_overwrite_of_lt _ (by omega)]
  · exact (appends_step s fun label heq => hbind ⟨label, heq⟩).kept i (by omega)

theorem Above.written_foldl (h : s.Above floor) (items : List Item) {i : Nat} (hi : i < floor) :
    (items.foldl Assembly.step s).code.written[i]? = s.code.written[i]? := by
  induction items generalizing s with
  | nil => rfl
  | cons item rest ih => rw [List.foldl_cons, ih (h.step item), h.written_step item hi]

/-! ## Too little room for the first instruction -/

/-- Everything was dropped so far, and everything else will be. -/
structure Choked (s : Assembly) : Prop where
  overflowed : s.code.overflowed = true
  size : 4 ≤ s.code.size
  size64 : s.code.size < UInt64.size
  pending : ∀ label stop, s.pending.lookup label = some stop → stop = s.code.size

/-- The effect of a step on a choked arena. -/
theorem Choked.code_step (h : s.Choked) (item : Item) :
    (s.step item).code = s.code ∨ (s.step item).code = s.code.dent := by
  by_cases hbind : ∃ label, item = .bind label
  · obtain ⟨label, rfl⟩ := hbind
    rw [code_step_bind]
    cases hlookup : s.pending.lookup label with
    | none => exact .inl rfl
    | some stop =>
      obtain rfl := h.pending label stop hlookup
      exact .inr (Arena.bind_size h.size h.size64)
  · exact .inl ((appends_step s fun label heq => hbind ⟨label, heq⟩).dropped h.overflowed)

theorem Choked.step (h : s.Choked) (item : Item) : (s.step item).Choked := by
  have hsize : (s.step item).code.size = s.code.size := by
    rcases h.code_step item with hcode | hcode <;> rw [hcode]
    exact Arena.size_dent _
  refine ⟨?_, hsize ▸ h.size, hsize ▸ h.size64, fun label stop hlookup => ?_⟩
  · rcases h.code_step item with hcode | hcode <;> rw [hcode]
    · exact h.overflowed
    · exact h.overflowed
  · rw [pending_step] at hlookup
    rw [hsize]
    cases hlabel : item.jumpLabel? with
    | none =>
      rw [hlabel] at hlookup
      exact h.pending label stop hlookup
    | some new =>
      rw [hlabel, List.lookup_cons] at hlookup
      split at hlookup
      · cases hlookup
        exact hsize
      · exact h.pending label stop hlookup

/-- Once dented, a choked arena stays as it is. -/
theorem Choked.code_foldl_of_dent (h : s.Choked) (hdent : s.code.dent = s.code)
    (items : List Item) : (items.foldl Assembly.step s).code = s.code := by
  induction items generalizing s with
  | nil => rfl
  | cons item rest ih =>
    have hcode : (s.step item).code = s.code := by
      rcases h.code_step item with hcode | hcode
      · exact hcode
      · exact hcode.trans hdent
    rw [List.foldl_cons, ih (h.step item) (by rw [hcode, hdent]), hcode]

end Assembly

/-! ## Assembling a block -/

/-- Two arrays of the same bytes up to an end are the same when cut there. -/
theorem shrink_eq_of_getElem? {α : Type} {xs ys : Array α} (hsize : ys.size ≤ xs.size)
    (h : ∀ i < ys.size, xs[i]? = ys[i]?) : xs.shrink ys.size = ys := by
  apply Array.ext_getElem?
  intro i
  rw [Array.shrink_eq_take, Array.take_eq_extract, Array.getElem?_extract, Nat.min_eq_left hsize,
    Nat.sub_zero, Nat.zero_add]
  split
  · next hi => exact h i hi
  · next hi => exact (Array.getElem?_eq_none (Nat.not_lt.1 hi)).symm

namespace Arena

variable {a : Arena} {stubs : Stubs} {start : UInt32} {items : Array Item} {more : List Item}

/-- With room for its first instruction, the assembly of a block keeps the bytes before it. -/
theorem written_assemble_of_roomy (hclean : a.overflowed = false)
    (hitems : items.toList = Lower.entryItems stubs start ++ more)
    (hlimit : a.limit < UInt64.size) (hroom : a.size + 8 ≤ a.limit) {i : Nat} (hi : i < a.size) :
    (a.assemble items).code.written[i]? = a.written[i]? := by
  have hlength : Lower.budgetCheck.encode.length = 8 := Lower.length_budgetCheck
  have hcode : a.write Lower.budgetCheck = a.append Lower.budgetCheck.encode := by
    rw [Lower.write_budgetCheck, emit_of_fits hclean (by rw [hlength]; exact hroom)]
  have hsize : (a.write Lower.budgetCheck).size = a.size + 8 := by
    rw [hcode, size_append, hlength]
  have habove : ((Assembly.start a).step (.instruction Lower.budgetCheck)).Above a.size := by
    have happends := Appends.write a Lower.budgetCheck
    refine ⟨?_, ?_, ?_, fun label stop h => by cases h⟩
    · change (a.write Lower.budgetCheck).size ≤ (a.write Lower.budgetCheck).limit
      rw [hsize, happends.limit]
      exact hroom
    · change (a.write Lower.budgetCheck).limit < _
      rw [happends.limit]
      exact hlimit
    · change a.size + 4 ≤ (a.write Lower.budgetCheck).size
      omega
  rw [Assembly.assemble_eq_foldl, hitems]
  refine (habove.written_foldl _ hi).trans ?_
  exact (Appends.write a Lower.budgetCheck).kept i hi

/-- Without, all of the block is dropped, and the last bytes before it are cleared. -/
theorem assemble_of_cramped (hitems : items.toList = Lower.entryItems stubs start ++ more)
    (hsize : 4 ≤ a.size) (h64 : a.size < UInt64.size) (hroom : a.limit < a.size + 8) :
    (a.assemble items).code = { a.dent with overflowed := true } := by
  let full : Arena := { a with overflowed := true }
  have hcheck : a.write Lower.budgetCheck = full := by
    rw [Lower.write_budgetCheck, emit, if_pos]
    exact .inr (by rw [Lower.length_budgetCheck]; exact hroom)
  -- The first jump is dropped as well, so that it seems to end where the block begins.
  have hjump : ((Assembly.start a).step (.instruction Lower.budgetCheck)).step
      (.jumpIf .greaterEqual 0) = ⟨full, [(0, a.size)], #[], a.size⟩ := by
    change Assembly.mk ((a.write Lower.budgetCheck).jumpIf _).2
      [(0, ((a.write Lower.budgetCheck).jumpIf _).1)] #[] a.size = _
    rw [hcheck, jumpIf, emit_of_overflowed (a := full) rfl]
    rfl
  have hinstruction (i : HostInstruction) :
      (Assembly.mk full [(0, a.size)] #[] a.size).step (.instruction i) =
        ⟨full, [(0, a.size)], #[], a.size⟩ := by
    change Assembly.mk (full.write i) _ _ _ = _
    rw [(Appends.write full i).dropped rfl]
  have hout (target : Nat) : (Assembly.mk full [(0, a.size)] #[] a.size).step (.jumpTo target) =
      ⟨full, [(0, a.size)], #[], a.size⟩ := by
    change Assembly.mk (full.jumpTo target) _ _ _ = _
    rw [(Appends.jumpTo full target).dropped rfl]
  have hbind : (Assembly.mk full [(0, a.size)] #[] a.size).step (.bind 0) =
      ⟨full.dent, [(0, a.size)], #[], a.size⟩ := by
    change Assembly.mk (full.bind a.size) _ _ _ = _
    rw [show full.bind a.size = full.dent from bind_size (a := full) hsize h64]
  have hentry : (Assembly.mk full.dent [(0, a.size)] #[] a.size).step .entry =
      ⟨full.dent, [(0, a.size)], #[], full.dent.size⟩ := rfl
  have hchoked : (Assembly.mk full.dent [(0, a.size)] #[] full.dent.size).Choked := by
    have hdent : full.dent.size = a.size := size_dent full
    refine ⟨rfl, ?_, ?_, fun label stop hlookup => ?_⟩
    · change 4 ≤ full.dent.size
      omega
    · change full.dent.size < UInt64.size
      omega
    · rw [List.lookup_cons] at hlookup
      split at hlookup
      · cases hlookup
        exact hdent.symm
      · cases hlookup
  rw [Assembly.assemble_eq_foldl, hitems]
  simp only [Lower.entryItems, List.cons_append, List.nil_append, List.foldl_cons]
  rw [hjump, hinstruction, hout, hbind, hentry]
  exact hchoked.code_foldl_of_dent (dent_dent full) more

end Arena

/-! ## The table after a failure -/

namespace BlockTable

variable {β : Type} [Bus β] {t : BlockTable} {bus : β} {options : Options}
  {regions : List FastRegion} {start : UInt32}

/-- What holds of the arena of a table between two operations. -/
structure Sound (t : BlockTable) : Prop where
  clean : t.code.overflowed = false
  stubs : Stubs.length ≤ t.code.size
  room : t.code.size ≤ t.code.capacity
  capacity : t.code.capacity ≤ Arena.addressSpace

namespace Sound

theorem size_ge (ht : t.Sound) : 4 ≤ t.code.size :=
  Nat.le_trans (by decide) ht.stubs

theorem size_lt (ht : t.Sound) : t.code.size < UInt64.size :=
  Nat.lt_of_le_of_lt (Nat.le_trans ht.room ht.capacity) (by decide)

theorem capacity_lt (ht : t.Sound) : t.code.capacity < UInt64.size :=
  Nat.lt_of_le_of_lt ht.capacity (by decide)

theorem size_add_spaceLeft (ht : t.Sound) : t.code.size + t.spaceLeft = t.code.capacity :=
  Nat.add_sub_cancel' ht.room

end Sound

/-- The bytes up to the end of the older code after a block was assembled behind it. -/
theorem written_assemble (ht : t.Sound) {items : Array Item} {more : List Item}
    (hitems : items.toList = Lower.entryItems t.stubs start ++ more) :
    (t.reserved.assemble items).code.written.shrink t.code.size =
      if 8 ≤ t.spaceLeft then t.code.written
      else Arena.overwrite t.code.written (t.code.size - 4) (Word.bytes 0) := by
  have hextends := Assembly.extends_assemble t.reserved items
  have hleft := ht.size_add_spaceLeft
  have hcapacity := ht.capacity_lt
  rw [reserved_eq ht.room] at hextends ⊢
  split
  · refine shrink_eq_of_getElem? hextends.size_le fun i hi => ?_
    refine Arena.written_assemble_of_roomy ?_ hitems ?_ ?_ hi
    · exact ht.clean
    · exact hcapacity
    · change t.code.size + 8 ≤ t.code.capacity
      omega
  · rw [Arena.assemble_of_cramped hitems]
    · have hsize : (Arena.overwrite t.code.written (t.code.size - 4) (Word.bytes 0)).size =
          t.code.size := Arena.size_overwrite _ _ _
      have hshrink := shrink_eq_of_getElem? (Nat.le_refl
        (Arena.overwrite t.code.written (t.code.size - 4) (Word.bytes 0)).size) fun _ _ => rfl
      rw [hsize] at hshrink
      exact hshrink
    · exact ht.size_ge
    · exact ht.size_lt
    · change t.code.capacity < t.code.size + 8
      omega

/-- After a failed compilation the table is as before, unless there was too little room for the
first instruction of a block: then the last four bytes of the older code are cleared. -/
theorem table_compile_error (ht : t.Sound) {e : CompileError}
    (h : (t.compile bus options regions start).result = .error (.compile e)) :
    (t.compile bus options regions start).table =
      { t with code := { t.code with
        limit := t.code.capacity
        written :=
          if 8 ≤ t.spaceLeft then t.code.written
          else Arena.overwrite t.code.written (t.code.size - 4) (Word.bytes 0) } } := by
  obtain ⟨more, hmore⟩ := Lower.code_block start
    ⟨options, regions, t.stubs, (t.opened start).entryAt t.size⟩ bus
  have hextends := extends_extended ht.room (t.lower bus options regions start).2
  have hwritten := written_assemble ht hmore
  rw [compile_eq_error h, ← hwritten]
  change BlockTable.mk ⟨(t.extended _).code.capacity, _, (t.extended _).code.limit, false⟩ _ _ _ _ _ =
    BlockTable.mk ⟨t.code.capacity, _, t.code.capacity, t.code.overflowed⟩ _ _ _ _ _
  rw [show (t.extended _).code.capacity = _ from hextends.capacity,
    show (t.extended _).code.limit = _ from hextends.limit, ht.clean]
  rfl

end BlockTable

end Recompiler
