import Recompiler.Memory.Flat
import Recompiler.Proofs.Block.Discard
import Recompiler.Proofs.Block.Links
import Recompiler.Session

/-!
# Reachable sessions

The sessions that a host can bring about, and what their tables have in common.

* `Session.Reachable`: created, and then used in any order.
* `Session.Reachable.keeps`: how a property is shown for all of them.
* `BlockTable.Fits`: the table has the size that the options ask for.
* `Session.Reachable.fits`: every reachable table does.
-/

namespace Recompiler

/-- The error that a compilation came to, unless it broke a contract. -/
def Compilation.error? {β : Type} (c : Compilation β) : Option CompileError :=
  match c.result with
  | .error (.compile e) => some e
  | _ => none

theorem Compilation.result_of_error? {β : Type} {c : Compilation β} (h : c.error?.isSome = true) :
    ∃ e, c.result = .error (.compile e) := by
  obtain ⟨_ | _, table, bus, events⟩ := c
  · next f =>
    cases f with
    | compile e => exact ⟨e, rfl⟩
    | breach b => cases h
  · cases h

/-! ## The tables of a session -/

namespace BlockTable

/-- The table has the size that the options ask for, and the usual stubs. -/
structure Fits (o : Options) (t : BlockTable) : Prop extends t.Sound where
  codeSize : t.code.capacity = o.codeSize
  maxBlocks : t.maxBlocks = o.maxBlocks
  standard : t.stubs = Stubs.standard

variable {β : Type} {o : Options} {t u : BlockTable}

/-- A table without blocks. -/
def bare (capacity maxBlocks : Nat) : BlockTable :=
  ⟨{ Arena.blank capacity with written := Stubs.code }, #[], ∅, ∅, Stubs.standard, maxBlocks⟩

theorem size_code_bare (capacity maxBlocks : Nat) :
    (bare capacity maxBlocks).code.size = Stubs.length :=
  Stubs.size_code

theorem clear_eq (h : Stubs.length ≤ t.code.capacity) :
    t.clear = bare t.code.capacity t.maxBlocks := by
  have hreset : t.code.reset = Arena.blank t.code.capacity := rfl
  rw [clear, hreset, Stubs.generate_blank h, bare]

/-- Creating a table, by what comes of the stubs. -/
private theorem create_blank (capacity maxBlocks : Nat) :
    create (Arena.blank capacity) maxBlocks =
      if (Stubs.generate (Arena.blank capacity)).2.overflowed then .error .codeSpaceExhausted
      else .ok ⟨{ (Stubs.generate (Arena.blank capacity)).2 with overflowed := false }, #[], ∅, ∅,
        (Stubs.generate (Arena.blank capacity)).1, maxBlocks⟩ := by
  have hreset : (Arena.blank capacity).reset = Arena.blank capacity := rfl
  simp only [create, clear, hreset]
  generalize Stubs.generate (Arena.blank capacity) = r
  rfl

/-- A new table has no blocks. -/
theorem create_of_length_le {capacity maxBlocks : Nat} (h : Stubs.length ≤ capacity) :
    create (Arena.blank capacity) maxBlocks = .ok (bare capacity maxBlocks) := by
  rw [create_blank, Stubs.generate_blank h]
  rfl

theorem create_of_lt_length {capacity maxBlocks : Nat} (h : capacity < Stubs.length) :
    create (Arena.blank capacity) maxBlocks = .error .codeSpaceExhausted := by
  rw [create_blank, if_pos]
  exact (Bool.not_eq_false _).mp fun hclean =>
    Nat.not_le.2 h (Stubs.length_le_of_clean hclean)

theorem fits_bare {capacity maxBlocks : Nat} (h : Stubs.length ≤ capacity)
    (h' : capacity ≤ Arena.addressSpace) (hcapacity : capacity = o.codeSize)
    (hmaxBlocks : maxBlocks = o.maxBlocks) : (bare capacity maxBlocks).Fits o := by
  have hsize := size_code_bare capacity maxBlocks
  exact ⟨⟨rfl, Nat.le_of_eq hsize.symm, Nat.le_trans (Nat.le_of_eq hsize) h, h'⟩, hcapacity,
    hmaxBlocks, rfl⟩

namespace Fits

theorem length_le (ht : t.Fits o) : Stubs.length ≤ t.code.capacity :=
  Nat.le_trans ht.stubs ht.room

theorem clear (ht : t.Fits o) : t.clear.Fits o := by
  rw [clear_eq ht.length_le]
  exact fits_bare ht.length_le ht.capacity ht.codeSize ht.maxBlocks

/-- In a table without blocks there is room for all but the stubs. -/
theorem spaceLeft_clear (ht : t.Fits o) : t.clear.spaceLeft = o.codeSize - Stubs.length := by
  rw [clear_eq ht.length_le, spaceLeft, Arena.spaceLeft, size_code_bare]
  exact congrArg (· - Stubs.length) ht.codeSize

theorem relinks (ht : t.Fits o) (h : t.Relinks u) : u.Fits o := by
  have hcode := h.code.others
  exact
    { clean := by rw [hcode]; exact ht.clean
      stubs := by rw [h.code.size]; exact ht.stubs
      room := by rw [h.code.size, hcode]; exact ht.room
      capacity := by rw [hcode]; exact ht.capacity
      codeSize := by rw [hcode]; exact ht.codeSize
      maxBlocks := h.maxBlocks.trans ht.maxBlocks
      standard := h.stubs.trans ht.standard }

theorem enlisted (ht : t.Fits o) (n : Nat) (b : Block) : (t.enlisted n b).Fits o :=
  ⟨⟨ht.clean, ht.stubs, ht.room, ht.capacity⟩, ht.codeSize, ht.maxBlocks, ht.standard⟩

/-- Assembling a block behind the others keeps to the capacity. -/
theorem assembled (ht : t.Fits o) (start : UInt32) (r : Lowering β) :
    (t.assembled start r).Fits o := by
  have hcapacity : (t.extended r).code.capacity = t.code.capacity :=
    (extends_extended ht.room r).capacity
  obtain ⟨hsize, hroom⟩ := size_extended ht.room r
  exact
    { clean := rfl
      stubs := Nat.le_trans ht.stubs hsize
      room := hcapacity ▸ hroom
      capacity := hcapacity ▸ ht.capacity
      codeSize := hcapacity.trans ht.codeSize
      maxBlocks := ht.maxBlocks
      standard := ht.standard }

/-- Dropping the code of a block keeps what was there before it. -/
theorem discard_assembled (ht : t.Fits o) (start : UInt32) (r : Lowering β) {n : Nat}
    (h : (t.assembled start r).discard n = .ok u) : u.Fits o := by
  have hassembled := ht.assembled start r
  have hback : (t.assembled start r).blocks.back? =
      some ⟨start, r.instructions, 0, t.code.size, (t.extended r).entry, (t.extended r).exits⟩ :=
    Array.back?_push
  unfold discard at h
  split at h
  · cases h
  · rw [hback] at h
    cases h
    have hsize : (((t.assembled start r).code.truncate t.code.size).takeOverflow.2).size =
        min t.code.size (t.assembled start r).code.size := Arena.size_truncate _ _
    have hmin := Nat.min_le_right t.code.size (t.assembled start r).code.size
    have hle : t.code.size ≤ (t.assembled start r).code.size := (size_extended ht.room r).1
    exact
      { clean := rfl
        stubs := by
          refine Nat.le_trans ht.stubs (Nat.le_of_eq ?_)
          rw [hsize, Nat.min_eq_left hle]
        room := Nat.le_trans (Nat.le_of_eq hsize) (Nat.le_trans hmin hassembled.room)
        capacity := hassembled.capacity
        codeSize := hassembled.codeSize
        maxBlocks := hassembled.maxBlocks
        standard := hassembled.standard }

/-- Whatever comes of a compilation, the table keeps its size. -/
theorem compile [Bus β] (ht : t.Fits o) (bus : β) (options : Options) (regions : List FastRegion)
    (start : UInt32) : (t.compile bus options regions start).table.Fits o := by
  cases hfull : t.isFull with
  | true =>
    rw [compile_of_full hfull]
    exact ht
  | false =>
    rw [compile_of_not_full hfull]
    rcases t.lower bus options regions start with ⟨outcome, r⟩
    dsimp only
    split
    · split
      · next hfinalize =>
        exact ((ht.assembled start r).enlisted _ _).relinks
          (relinks_finalize Array.getElem?_push_size hfinalize)
      · exact ht.assembled start r
    · split
      · next hdiscard => exact ht.discard_assembled start r hdiscard
      · exact ht.assembled start r

end Fits

end BlockTable

/-! ## The steps of a session -/

namespace Session

variable {β : Type}

@[simp] theorem table_makeRoom (s : Session β) :
    s.makeRoom.table =
      if s.table.isFull ∨ s.table.spaceLeft < s.options.reservedCodeMargin then s.table.clear
      else s.table := by
  unfold makeRoom
  split <;> rfl

@[simp] theorem options_makeRoom (s : Session β) : s.makeRoom.options = s.options := by
  unfold makeRoom
  split <;> rfl

theorem number?_makeRoom {s : Session β} {addr : UInt32} (h : s.table.number? addr = none) :
    s.makeRoom.table.number? addr = none := by
  rw [table_makeRoom]
  split
  · simp [BlockTable.clear, BlockTable.number?]
  · exact h

variable [Bus β] (s : Session β) (addr : UInt32)

@[simp] theorem result_compileBlock :
    (s.compileBlock addr).1 = (s.table.compile s.env.bus s.options s.regions addr).result := rfl

@[simp] theorem table_compileBlock :
    (s.compileBlock addr).2.table = (s.table.compile s.env.bus s.options s.regions addr).table :=
  rfl

@[simp] theorem options_compileBlock : (s.compileBlock addr).2.options = s.options := rfl

@[simp] theorem table_dumpBlock (n : Nat) : (s.dumpBlock n).table = s.table := by
  unfold dumpBlock
  split <;> rfl

@[simp] theorem options_dumpBlock (n : Nat) : (s.dumpBlock n).options = s.options := by
  unfold dumpBlock
  split <;> rfl

/-- The session that a block is compiled in for the second time. -/
def retried : Session β :=
  { (s.compileBlock addr).2.report [.retrying addr] with
    table := (s.compileBlock addr).2.table.clear }

variable {s addr} in
theorem compileRetrying_of_exhausted
    (h : (s.compileBlock addr).1 = .error (.compile .codeSpaceExhausted)) :
    s.compileRetrying addr = (s.retried addr).compileBlock addr := by
  unfold compileRetrying retried
  rcases hc : s.compileBlock addr with ⟨result, s'⟩
  rw [hc] at h
  cases h
  rfl

variable {s addr} in
theorem compileRetrying_of_not_exhausted
    (h : (s.compileBlock addr).1 ≠ .error (.compile .codeSpaceExhausted)) :
    s.compileRetrying addr = s.compileBlock addr := by
  unfold compileRetrying
  split
  · next heq => exact absurd (congrArg Prod.fst heq) h
  · rfl

@[simp] theorem options_compileRetrying : (s.compileRetrying addr).2.options = s.options := by
  by_cases h : (s.compileBlock addr).1 = .error (.compile .codeSpaceExhausted)
  · rw [compileRetrying_of_exhausted h]
    rfl
  · rw [compileRetrying_of_not_exhausted h]
    rfl

variable {s addr}

/-- A block that is there is not compiled. -/
theorem compile_of_some {n : Nat} (h : s.table.number? addr = some n) :
    s.compile addr = (.ok n, s) := by
  rw [compile, h]

/-- A block that is not there is compiled, with room made before. -/
theorem compile_of_none (h : s.table.number? addr = none) :
    (s.compile addr).1 = (s.makeRoom.compileRetrying addr).1.mapError .ofFailure ∧
      (s.compile addr).2.table = (s.makeRoom.compileRetrying addr).2.table ∧
      (s.compile addr).2.options = s.options := by
  have hoptions := options_compileRetrying s.makeRoom addr
  rw [options_makeRoom] at hoptions
  rw [compile, h]
  rcases hc : s.makeRoom.compileRetrying addr with ⟨_ | n, s'⟩ <;> rw [hc] at hoptions <;>
    dsimp only at hoptions ⊢
  · exact ⟨rfl, rfl, hoptions⟩
  · split
    · exact ⟨rfl, table_dumpBlock s' n, (options_dumpBlock s' n).trans hoptions⟩
    · exact ⟨rfl, rfl, hoptions⟩

@[simp] theorem options_compile (s : Session β) (addr : UInt32) :
    (s.compile addr).2.options = s.options := by
  cases h : s.table.number? addr with
  | none => exact (compile_of_none h).2.2
  | some n => rw [compile_of_some h]

/-- Running generated code changes the guest only. -/
theorem enter_eq {entry : Nat} {reason : ExitReason} {s' : Session β}
    (h : s.enter entry = some (reason, s')) : s' = { s with env := s'.env } := by
  unfold enter at h
  obtain ⟨m, -, h⟩ := Option.bind_eq_some_iff.1 h
  obtain ⟨r, -, h⟩ := Option.bind_eq_some_iff.1 h
  cases h
  rfl

/-! ## Reachable sessions -/

/-- A session that a host can bring about, if no compilation and no run comes to an error that is
not `allowed`. -/
inductive Reachable (allowed : SessionError → Prop) : Session β → Prop
  | create {bus : β} {options : Options} {available : Nat} {s : Session β}
      (h : create bus options available = .ok s) : Reachable allowed s
  /-- The host writes to the guest state or the guest memory. -/
  | write {s : Session β} (h : Reachable allowed s) (env : Environment β) :
      Reachable allowed { s with env := env }
  | compile {s : Session β} (h : Reachable allowed s) (addr : UInt32)
      (hresult : ∀ e, (s.compile addr).1 = .error e → allowed e) :
      Reachable allowed (s.compile addr).2
  | run {s s' : Session β} {rounds : Nat} {cycles : UInt32} {result : Except SessionError RunExit}
      (h : Reachable allowed s) (hrun : s.run rounds cycles = some (result, s'))
      (hresult : ∀ e, result = .error e → allowed e) : Reachable allowed s'
  | clear {s : Session β} (h : Reachable allowed s) : Reachable allowed s.clear
  | invalidate {s : Session β} (h : Reachable allowed s) (addr length : UInt32) :
      Reachable allowed (s.invalidate addr length)

/-- A run keeps what compilations and changes of the guest keep. -/
theorem loop_keeps {allowed : SessionError → Prop} {I : Session β → Prop}
    (hwrite : ∀ (s : Session β) env, I s → I { s with env := env })
    (hcompile : ∀ (s : Session β) addr, I s →
      (∀ e, (s.compile addr).1 = .error e → allowed e) → I (s.compile addr).2)
    {rounds : Nat} {s s' : Session β} {result : Except SessionError RunExit}
    (hs : I s) (hrun : s.loop rounds = some (result, s'))
    (hresult : ∀ e, result = .error e → allowed e) : I s' := by
  induction rounds generalizing s with
  | zero => cases hrun
  | succ rounds ih =>
    -- The run ends before the block, with an error of the compilation, or behind the block.
    have hstep := hcompile s s.env.state.pc hs
    rw [loop] at hrun
    dsimp only at hrun
    split at hrun
    · cases hrun
      exact hwrite s _ hs
    · split at hrun
      · cases hrun
        exact hs
      · rcases hc : s.compile s.env.state.pc with ⟨e | n, s₁⟩ <;>
          rw [hc] at hrun hstep <;> dsimp only at hrun hstep
        · cases hrun
          refine hstep fun e' he' => hresult e' ?_
          cases he'
          rfl
        · have hs₁ : I s₁ := hstep fun _ h => by cases h
          split at hrun
          · cases hrun
          · next s₂ henter =>
            cases hrun
            have hs₂ : I s₂ := by
              rw [enter_eq henter]
              exact hwrite s₁ _ hs₁
            exact hwrite s₂ _ hs₂
          · next s₂ _ henter =>
            refine ih ?_ hrun
            rw [enter_eq henter]
            exact hwrite s₁ _ hs₁

/-- What holds of new sessions and is kept by compiling, clearing and changing the guest holds of all
reachable sessions. -/
theorem Reachable.keeps {allowed : SessionError → Prop} {I : Session β → Prop}
    (hcreate : ∀ (bus : β) options available s, Session.create bus options available = .ok s → I s)
    (hwrite : ∀ (s : Session β) env, I s → I { s with env := env })
    (hcompile : ∀ (s : Session β) addr, I s →
      (∀ e, (s.compile addr).1 = .error e → allowed e) → I (s.compile addr).2)
    (hclear : ∀ s : Session β, I s → I { s with table := s.table.clear })
    {s : Session β} (h : Reachable allowed s) : I s := by
  induction h with
  | create h => exact hcreate _ _ _ _ h
  | write _ env ih => exact hwrite _ env ih
  | compile _ addr hresult ih => exact hcompile _ addr ih hresult
  | @run s s' rounds cycles _ _ hrun hresult ih =>
    exact loop_keeps hwrite hcompile (hwrite s _ ih) hrun hresult
  | @clear s _ ih =>
    exact hwrite { s with table := s.table.clear } s.clear.env (hclear s ih)
  | @invalidate s _ addr length ih =>
    exact hwrite { s with table := s.table.clear } (s.invalidate addr length).env (hclear s ih)

/-- What holds of new tables and is kept by compiling and clearing holds of all reachable tables. -/
theorem Reachable.table {allowed : SessionError → Prop} {I : Options → BlockTable → Prop}
    (hcreate : ∀ (bus : β) options available s, Session.create bus options available = .ok s →
      I s.options s.table)
    (hcompile : ∀ (s : Session β) addr, I s.options s.table →
      (∀ e, (s.compile addr).1 = .error e → allowed e) → I s.options (s.compile addr).2.table)
    (hclear : ∀ o t, I o t → I o t.clear) {s : Session β} (h : Reachable allowed s) :
    I s.options s.table := by
  refine Reachable.keeps (I := fun s => I s.options s.table) hcreate (fun _ _ hs => hs)
    (fun s addr hs hresult => ?_) (fun s hs => hclear _ _ hs) h
  rw [options_compile]
  exact hcompile s addr hs hresult

/-! ## New sessions -/

/-- A session that has not run yet. -/
def unused (bus : β) (options : Options) : Session β :=
  ⟨⟨.initial, bus, (regionEvents options (Bus.fastRegions bus)).toArray⟩,
    .bare options.codeSize options.maxBlocks, options, Bus.fastRegions bus⟩

/-- With valid options and an arena, it is up to the table whether there is a session. -/
private theorem create_eq {bus : β} {options : Options} {available : Nat}
    (hvalidate : options.validate (Bus.fastRegions bus) = .ok ()) (hempty : options.codeSize ≠ 0)
    (hrun : options.codeSize ≤ min available Arena.addressSpace) :
    create bus options available =
      match BlockTable.create (Arena.blank options.codeSize) options.maxBlocks with
      | .ok table => .ok { unused bus options with table := table }
      | .error e => .error (.compile e) := by
  -- For any function in place of `BlockTable.create`, so that it is not computed.
  have hchain (f : Arena → Except CompileError BlockTable) :
      (do
        (Except.ok () : Except ConfigError Unit).mapError SessionError.config
        let code ← (Except.ok (Arena.blank options.codeSize)).mapError SessionError.arena
        let table ← (f code).mapError SessionError.compile
        return { unused bus options with table := table }) =
      match f (Arena.blank options.codeSize) with
      | .ok table => .ok { unused bus options with table := table }
      | .error e => .error (.compile e) := by
    change ((f (Arena.blank options.codeSize)).mapError SessionError.compile >>= fun table =>
      pure { unused bus options with table := table } : Except SessionError (Session β)) = _
    cases f (Arena.blank options.codeSize) <;> rfl
  rw [← hchain fun code => BlockTable.create code options.maxBlocks, create]
  dsimp only [unused]
  rw [hvalidate, Arena.allocate, if_neg hempty, if_neg (Nat.not_lt.2 hrun)]

/-- Valid options with room for the stubs make a session, if the host has the space. -/
theorem create_of_available {bus : β} {options : Options} {available : Nat}
    (hvalidate : options.validate (Bus.fastRegions bus) = .ok ())
    (hlength : Stubs.length ≤ options.codeSize)
    (hrun : options.codeSize ≤ min available Arena.addressSpace) :
    create bus options available = .ok (unused bus options) := by
  have hempty : options.codeSize ≠ 0 := fun h => by
    rw [h] at hlength
    cases hlength
  rw [create_eq hvalidate hempty hrun, BlockTable.create_of_length_le hlength]
  rfl

/-- Hosts usually have it. -/
theorem create_of_valid {bus : β} {options : Options}
    (hvalidate : options.validate (Bus.fastRegions bus) = .ok ())
    (hlength : Stubs.length ≤ options.codeSize) (hrun : options.codeSize ≤ Arena.usualRun) :
    create bus options = .ok (unused bus options) :=
  create_of_available hvalidate hlength
    (Nat.le_min.2 ⟨hrun, Nat.le_trans hrun (by decide)⟩)

/-- What a session is made from. -/
theorem create_eq_ok {bus : β} {options : Options} {available : Nat}
    (h : create bus options available = .ok s) :
    options.validate (Bus.fastRegions bus) = .ok () ∧ Stubs.length ≤ options.codeSize ∧
      options.codeSize ≤ min available Arena.addressSpace ∧ s = unused bus options := by
  have hvalidate : options.validate (Bus.fastRegions bus) = .ok () := by
    cases hvalidate : options.validate (Bus.fastRegions bus) with
    | error e =>
      rw [create, hvalidate] at h
      cases h
    | ok u => rfl
  have hrun : options.codeSize ≠ 0 ∧ options.codeSize ≤ min available Arena.addressSpace := by
    rw [create, hvalidate, Arena.allocate] at h
    split at h
    · cases h
    · split at h
      · cases h
      · next hempty hrun => exact ⟨hempty, Nat.not_lt.1 hrun⟩
  have hlength : Stubs.length ≤ options.codeSize := by
    refine Nat.not_lt.1 fun hlt => ?_
    rw [create_eq hvalidate hrun.1 hrun.2, BlockTable.create_of_lt_length hlt] at h
    cases h
  rw [create_of_available hvalidate hlength hrun.2] at h
  exact ⟨hvalidate, hlength, hrun.2, (Except.ok.inj h).symm⟩

/-! ## Tables of the right size -/

/-- Whatever comes of a compilation, the table keeps its size. -/
theorem fits_compile (hs : s.table.Fits s.options) (addr : UInt32) :
    (s.compile addr).2.table.Fits s.options := by
  have hblock (s' : Session β) (hs' : s'.table.Fits s.options) :
      (s'.compileBlock addr).2.table.Fits s.options := hs'.compile _ _ _ _
  have hroom : s.makeRoom.table.Fits s.options := by
    rw [table_makeRoom]
    split
    · exact hs.clear
    · exact hs
  cases h : s.table.number? addr with
  | some n => rwa [compile_of_some h]
  | none =>
    rw [(compile_of_none h).2.1]
    by_cases hexhausted :
      (s.makeRoom.compileBlock addr).1 = .error (.compile .codeSpaceExhausted)
    · rw [compileRetrying_of_exhausted hexhausted]
      exact hblock _ (hblock _ hroom).clear
    · rw [compileRetrying_of_not_exhausted hexhausted]
      exact hblock _ hroom

/-- Every table that a host can bring about has the size that the options ask for. -/
theorem Reachable.fits {allowed : SessionError → Prop} (hs : s.Reachable allowed) :
    s.table.Fits s.options := by
  refine Reachable.table (I := fun o t => t.Fits o) (fun bus options available s h => ?_)
    (fun s addr hs _ => fits_compile hs addr) (fun _ _ ht => ht.clear) hs
  obtain ⟨-, hlength, hrun, rfl⟩ := create_eq_ok h
  exact BlockTable.fits_bare hlength (Nat.le_trans hrun (Nat.min_le_right _ _)) rfl rfl

/-! ## Failed compilations -/

/-- The bytes that clearing the last four of them leaves. -/
theorem getElem?_overwrite_last {written : Array UInt8} (h : 4 ≤ written.size) (i : Nat) :
    (Arena.overwrite written (written.size - 4) (Word.bytes 0))[i]? =
      if written.size - 4 ≤ i ∧ i < written.size then some 0 else written[i]? := by
  rw [Arena.getElem?_overwrite, Arena.length_wordBytes]
  have hzeros (j : Nat) (hj : j < 4) : (Word.bytes 0)[j]? = some 0 := by
    match j, hj with
    | 0, _ | 1, _ | 2, _ | 3, _ => rfl
  by_cases hi : written.size - 4 ≤ i ∧ i < written.size
  · rw [if_pos hi, if_pos (by omega)]
    exact hzeros _ (by omega)
  · rw [if_neg hi, if_neg (by omega)]

/-- A compilation that fails leaves the blocks, the index, the links, the stubs and the length of
the code alone, whatever the bus, and notes no overflow. All bytes of the code stay exactly if there
was room for the first instruction of a block, or if the last four of them were zero; otherwise
these become zero. -/
theorem Reachable.table_of_failed_compilation {allowed : SessionError → Prop}
    (hs : s.Reachable allowed) {γ : Type} [Bus γ] (bus : γ) (options : Options)
    (regions : List FastRegion) (start : UInt32) {e : CompileError}
    (h : (s.table.compile bus options regions start).result = .error (.compile e)) :
    let t := s.table
    let u := (t.compile bus options regions start).table
    u.blocks = t.blocks ∧ u.byStart = t.byStart ∧ u.linksTo = t.linksTo ∧ u.stubs = t.stubs ∧
      u.code.size = t.code.size ∧ u.code.overflowed = t.code.overflowed ∧
      (u.code.written = t.code.written ↔ 8 ≤ t.spaceLeft ∨
        ∀ i, t.code.size - 4 ≤ i → i < t.code.size → t.code.written[i]? = some 0) ∧
      (∀ i < t.code.size - 4, u.code.written[i]? = t.code.written[i]?) ∧
      (t.spaceLeft < 8 → ∀ i, t.code.size - 4 ≤ i → i < t.code.size →
        u.code.written[i]? = some 0) := by
  intro t u
  have hsound : t.Sound := hs.fits.toSound
  have hu : u = _ := BlockTable.table_compile_error hsound h
  have hfour : 4 ≤ t.code.written.size := hsound.size_ge
  have hlast := getElem?_overwrite_last hfour
  rw [hu]
  refine ⟨rfl, rfl, rfl, rfl, ?_, rfl, ?_, fun i hi => ?_, fun hleft i hlow hhigh => ?_⟩
  -- Without room for the first instruction its zero word was written over the last four bytes.
  · change Array.size (if 8 ≤ t.spaceLeft then _ else _) = t.code.written.size
    split
    · rfl
    · exact Arena.size_overwrite _ _ _
  · change (if 8 ≤ t.spaceLeft then t.code.written
      else Arena.overwrite t.code.written (t.code.written.size - 4) (Word.bytes 0)) =
        t.code.written ↔ _
    split
    · next hroom => exact ⟨fun _ => .inl hroom, fun _ => rfl⟩
    · next hroom =>
      constructor
      · intro heq
        refine .inr fun i hlow hhigh => ?_
        rw [← heq, hlast i, if_pos ⟨hlow, hhigh⟩]
      · rintro (hroom' | hzero)
        · exact absurd hroom' hroom
        · apply Array.ext_getElem?
          intro i
          rw [hlast i]
          split
          · next hi => exact (hzero i hi.1 hi.2).symm
          · rfl
  · change (if 8 ≤ t.spaceLeft then t.code.written
      else Arena.overwrite t.code.written (t.code.written.size - 4) (Word.bytes 0))[i]? = _
    split
    · rfl
    · rw [hlast i, if_neg fun hi' => Nat.not_lt.2 hi'.1 hi]
  · change (if 8 ≤ t.spaceLeft then t.code.written
      else Arena.overwrite t.code.written (t.code.written.size - 4) (Word.bytes 0))[i]? = _
    rw [if_neg (Nat.not_le.2 hleft), hlast i, if_pos ⟨hlow, hhigh⟩]

/-- Options under which an arena has room for the stubs and nothing else. -/
def cramped : Options :=
  { Options.standard with codeSize := Stubs.length, reservedCodeMargin := 0 }

/-- A compilation that cannot read its first instruction clears the end of the stubs, if they fill
the arena. -/
theorem table_of_failed_compilation_of_cramped :
    let bus := FlatMemory.zeros 0 16 0
    ∃ s : Session FlatMemory, s.Reachable (fun _ => True) ∧
      (s.table.compile bus cramped s.regions 0x5000).table.blocks = s.table.blocks ∧
      (s.table.compile bus cramped s.regions 0x5000).table.code.written ≠
        s.table.code.written := by
  intro bus
  have hvalidate : cramped.validate (Bus.fastRegions bus) = .ok () := by rfl
  have hreachable : Reachable (fun _ => True) (unused bus cramped) :=
    .create (create_of_valid hvalidate (by decide) (by decide))
  have hresult : ((unused bus cramped).table.compile bus cramped (unused bus cramped).regions
      0x5000).error?.isSome = true := by decide +kernel
  have hleft : ¬ 8 ≤ (unused bus cramped).table.spaceLeft := by decide +kernel
  have hlast : (unused bus cramped).table.code.written[111]? = some 0xCC := by decide +kernel
  have hsize : (unused bus cramped).table.code.size = 112 := by decide +kernel
  generalize unused bus cramped = s at hreachable hresult hleft hlast hsize
  obtain ⟨e, he⟩ := Compilation.result_of_error? hresult
  obtain ⟨hblocks, -, -, -, -, -, hsame, -, -⟩ :=
    hreachable.table_of_failed_compilation bus cramped s.regions 0x5000 he
  refine ⟨s, hreachable, hblocks, fun heq => ?_⟩
  rcases hsame.1 heq with hroom | hzero
  · exact hleft hroom
  · have hbyte := hzero 111 (by omega) (by omega)
    rw [hlast] at hbyte
    cases hbyte

end Session

end Recompiler
