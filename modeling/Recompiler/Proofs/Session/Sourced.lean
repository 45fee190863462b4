import Recompiler.Proofs.Block.Filled
import Recompiler.Proofs.Session.Compiling
import Recompiler.Proofs.Session.Coherence

/-!
# Sourced sessions

Every block of a session was lowered from guest memory as it was some time before. A failed compilation
leaves the blocks alone, unless it clears the end of their code.

* `BlockTable.Damaged`: the end of the code was cleared.
* `Session.Sourced`: what is known of the guest from which a block was lowered.
* `Session.Sourced.compile_lowered`: compiling keeps it.
* `Session.Recorded`: a session with the guests that its blocks were lowered from.
* `Session.Recorded.sourced`, `Session.Recorded.sourced_of_intact`: the record is right.
-/

namespace Recompiler

/-! ## Damage -/

namespace BlockTable

variable {t : BlockTable}

/-- The code was damaged by a failed compilation: there is no room behind it for the first instruction
of a block, and its last four bytes are zero. -/
def Damaged (t : BlockTable) : Prop :=
  t.spaceLeft < 8 ∧ ∀ i, t.code.size - 4 ≤ i → i < t.code.size → t.code.written[i]? = some 0

/-- The table with another limit for the next writes. -/
def withLimit (t : BlockTable) (limit : Nat) : BlockTable :=
  { t with code := { t.code with limit := limit } }

theorem Coherent.withLimit {link : Bool} (h : t.Coherent link) (limit : Nat) :
    (t.withLimit limit).Coherent link :=
  ⟨h.indexed, h.few, h.tiles, h.aligned, h.stubs, ⟨h.wired.within, h.wired.apart, h.wired.leads⟩,
    h.linked, h.noted, h.known⟩

variable {β : Type} [Bus β] {bus : β} {o : Options} {regions : List FastRegion} {start : UInt32}
  {known known' : UInt32 → β → Prop}

theorem Sourced.withLimit (h : t.Sourced o regions known) (limit : Nat) :
    (t.withLimit limit).Sourced o regions known := by
  intro n b hb
  obtain ⟨bus, hbus, entryAt, u, hexec, hfilled, hcount⟩ := h n b hb
  exact ⟨bus, hbus, entryAt, u, hexec,
    ⟨hfilled.laid, hfilled.stop, hfilled.normal, hfilled.places⟩, hcount⟩

/-- A compilation that fails changes the limit only, or it damages the code. -/
theorem table_compile_error_or (ht : t.Sound) {e : CompileError}
    (h : (t.compile bus o regions start).result = .error (.compile e)) :
    8 ≤ t.spaceLeft ∧ (t.compile bus o regions start).table = t.withLimit t.code.capacity ∨
      (t.compile bus o regions start).table.Damaged := by
  rw [table_compile_error ht h]
  by_cases hspace : 8 ≤ t.spaceLeft
  · left
    rw [if_pos hspace]
    exact ⟨hspace, rfl⟩
  · right
    rw [if_neg hspace]
    obtain ⟨cleared, hcleared⟩ : ∃ bytes : Array UInt8,
        bytes = Arena.overwrite t.code.written (t.code.size - 4) (Word.bytes 0) := ⟨_, rfl⟩
    have hsize : cleared.size = t.code.size := hcleared ▸ Arena.size_overwrite _ _ _
    have hzero (i : Nat) (hlow : cleared.size - 4 ≤ i) (hhigh : i < cleared.size) :
        cleared[i]? = some 0 := by
      rw [hsize] at hlow hhigh
      rw [hcleared, Arena.size, Session.getElem?_overwrite_last ht.size_ge]
      exact if_pos ⟨hlow, hhigh⟩
    rw [← hcleared]
    refine ⟨?_, hzero⟩
    change t.code.capacity - cleared.size < 8
    rw [hsize]
    exact Nat.not_le.1 hspace

/-- Before a block that was compiled there was room for its first instruction. -/
theorem le_spaceLeft_of_compile (ht : t.Sound) {n : Nat}
    (h : (t.compile bus o regions start).result = .ok n) : 8 ≤ t.spaceLeft := by
  obtain ⟨-, hok, hclean, -⟩ := compile_eq_ok h
  have hentry := size_entry_le_extended ht bus o regions start hok hclean
  have hroom := (size_extended ht.room (t.lower bus o regions start).2).2
  have hleft := ht.size_add_spaceLeft
  omega

/-- Nothing need be known of an address without a block. -/
theorem Sourced.forget {link : Bool} (h : t.Sourced o regions known) (hc : t.Coherent link)
    (hnone : t.number? start = none)
    (hknown : ∀ addr bus, addr ≠ start → known addr bus → known' addr bus) :
    t.Sourced o regions known' := by
  intro n b hb
  obtain ⟨bus, hbus, hholds⟩ := h n b hb
  have hne : b.start ≠ start := by
    intro heq
    have hindex := (hc.indexed start n).2 ⟨b, hb, heq⟩
    rw [hnone] at hindex
    cases hindex
  exact ⟨bus, hknown _ _ hne hbus, hholds⟩

/-- More may be known. -/
theorem Sourced.mono (h : t.Sourced o regions known)
    (hknown : ∀ addr bus, known addr bus → known' addr bus) : t.Sourced o regions known' := by
  intro n b hb
  obtain ⟨bus, hbus, hholds⟩ := h n b hb
  exact ⟨bus, hknown _ _ hbus, hholds⟩

end BlockTable

/-! ## Sessions -/

namespace Session

variable {β : Type} [Bus β] {s : Session β} {known known' : UInt32 → β → Prop} {addr : UInt32}

/-- A block that does not fit was read from the guest as it is. -/
theorem readsTo_of_exhausted (h : Ready s.options s.table) (hfull : s.table.isFull = false)
    (hexhausted : (s.compileBlock addr).1 = .error (.compile .codeSpaceExhausted)) :
    Bus.ReadsTo s.env.bus (s.compileBlock addr).2.env.bus := by
  have hanswers := (h.numbered.compile h.toSound hfull s.env.bus s.options s.regions addr).2
  rw [result_compileBlock] at hexhausted
  rcases hanswers with ⟨n, hok⟩ | ⟨-, hreads⟩ | ⟨e, he, hbreaks⟩
  · rw [hok] at hexhausted
    cases hexhausted
  · exact hreads
  · rw [he] at hexhausted
    cases hexhausted
    rcases hbreaks.unreadable with ⟨_, _, h⟩ | ⟨_, _, h⟩ <;> cases h

/-- The table is coherent, and its blocks were lowered from guests that are `known` to belong to
them. -/
structure Sourced (known : UInt32 → β → Prop) (s : Session β) : Prop where
  ready : Ready s.options s.table
  coherent : s.table.Coherent s.options.enableBlockLink
  sourced : s.table.Sourced s.options s.regions known

/-- A new table is sourced. -/
theorem sourced_bare (s : Session β) (known : UInt32 → β → Prop) :
    let t := BlockTable.bare s.options.codeSize s.options.maxBlocks
    t.Coherent s.options.enableBlockLink ∧ t.Sourced s.options s.regions known :=
  ⟨BlockTable.coherent_bare _ _ _, BlockTable.sourced_of_isEmpty rfl⟩

/-- A session that dropped its blocks is sourced. -/
theorem sourced_clear (h : Ready s.options s.table) (known : UInt32 → β → Prop) :
    Sourced known { s with table := s.table.clear } := by
  have hbare := s.sourced_bare known
  rw [← h.codeSize, ← h.maxBlocks, ← BlockTable.clear_eq h.length_le] at hbare
  exact ⟨h.clear, hbare.1, hbare.2⟩

/-- A new session has no blocks. -/
theorem sourced_of_create {bus : β} {options : Options} {available : Nat}
    (h : create bus options available = .ok s) :
    s.Sourced known := by
  have hnew : Reachable (fun _ => True) s := .create h
  obtain ⟨-, -, -, rfl⟩ := create_eq_ok h
  exact ⟨hnew.ready, (sourced_bare _ known).1, (sourced_bare _ known).2⟩

namespace Sourced

theorem clear (h : s.Sourced known) : Sourced known { s with table := s.table.clear } :=
  sourced_clear h.ready known

/-- More may be known. -/
theorem mono (h : s.Sourced known) (hknown : ∀ start bus, known start bus → known' start bus) :
    s.Sourced known' :=
  ⟨h.ready, h.coherent, h.sourced.mono hknown⟩

/-- Nothing need be known of an address without a block. -/
theorem forget (h : s.Sourced known) (hnone : s.table.number? addr = none)
    (hknown : ∀ start bus, start ≠ addr → known start bus → known' start bus) :
    s.Sourced known' :=
  ⟨h.ready, h.coherent, h.sourced.forget h.coherent hnone hknown⟩

/-- A block is lowered from what reading leaves of the guest. -/
theorem readsTo_lowered (h : s.Sourced known) (addr : UInt32) :
    Bus.ReadsTo s.env.bus (s.lowered addr) := by
  by_cases hexhausted : (s.makeRoom.compileBlock addr).1 = .error (.compile .codeSpaceExhausted)
  · rw [lowered_of_exhausted hexhausted]
    exact (bus_makeRoom s).1 ▸ readsTo_of_exhausted (ready_makeRoom h.ready)
      (isFull_makeRoom h.ready.toFits h.ready.blocks) hexhausted
  · rw [lowered_of_not_exhausted hexhausted]
    exact .refl

/-- The table that a block gets compiled into is sourced. -/
theorem attempt (h : s.Sourced known) {t : BlockTable}
    (ht : t = s.table ∨ t = .bare s.options.codeSize s.options.maxBlocks) :
    t.Coherent s.options.enableBlockLink ∧ t.Sourced s.options s.regions known := by
  rcases ht with rfl | rfl
  · exact ⟨h.coherent, h.sourced⟩
  · exact s.sourced_bare known

/-- Compiling a block keeps a session sourced, if the guest that it is lowered from is known. -/
theorem compile_lowered (h : s.Sourced known) {n : Nat}
    (hknown : s.table.number? addr = none → known addr (s.lowered addr))
    (hresult : (s.compile addr).1 = .ok n) : (s.compile addr).2.Sourced known := by
  refine ⟨?_, ?_, ?_⟩
  · rw [options_compile]
    exact (h.ready.compile addr).1
  · rw [options_compile]
    exact coherent_compile h.ready.toFits h.coherent hresult
  · rw [options_compile, regions_compile]
    cases hnumber : s.table.number? addr with
    | some m =>
      rw [compile_of_some hnumber]
      exact h.sourced
    | none =>
      obtain ⟨t, ht, hfits, hnone, hcompile, htable⟩ := exists_attempt h.ready.toFits hnumber
      obtain ⟨hcoherent, hsourced⟩ := h.attempt ht
      rw [htable]
      exact hsourced.compile hfits.toSound hfits.standard hcoherent hnone (hknown hnumber)
        (result_of_attempt (hcompile.symm.trans hresult))

end Sourced

/-! ## Sessions with failed compilations -/

/-- The blocks were lowered from guests that are `known` to belong to them, unless the code was
damaged. -/
structure Accounted (known : UInt32 → β → Prop) (s : Session β) : Prop where
  ready : Ready s.options s.table
  sourced : ¬ s.table.Damaged → s.Sourced known

namespace Accounted

theorem of_sourced (h : s.Sourced known) : s.Accounted known :=
  ⟨h.ready, fun _ => h⟩

theorem withEnv (h : s.Accounted known) (env : Environment β) :
    Accounted known { s with env := env } where
  ready := h.ready
  sourced hintact :=
    have hsourced := h.sourced hintact
    ⟨hsourced.ready, hsourced.coherent, hsourced.sourced⟩

/-- Whatever comes of a compilation, the blocks stay accounted for. The address of a block that was
not there is the only one of which something new must be known. -/
theorem compile (h : s.Accounted known)
    (hold : ∀ start bus, (s.table.number? addr = none → start ≠ addr) → known start bus →
      known' start bus)
    (hnew : s.table.number? addr = none → known' addr (s.lowered addr)) :
    (s.compile addr).2.Accounted known' := by
  cases hnumber : s.table.number? addr with
  | some n =>
    rw [compile_of_some hnumber]
    refine ⟨h.ready, fun hintact => (h.sourced hintact).mono fun start bus => hold start bus ?_⟩
    rw [hnumber]
    nofun
  | none =>
    obtain ⟨hready, hanswers⟩ := h.ready.compile addr
    obtain ⟨t, ht, hfits, hnone, hresult, htable⟩ := exists_attempt h.ready.toFits hnumber
    -- Where there is room for an instruction, nothing was damaged before.
    have hwhole (hspace : 8 ≤ t.spaceLeft) : t.Coherent s.options.enableBlockLink ∧
        t.Sourced s.options s.regions known' := by
      have hsourced : t.Coherent s.options.enableBlockLink ∧
          t.Sourced s.options s.regions known := by
        rcases ht with rfl | rfl
        · have hsourced := h.sourced fun hdamaged => Nat.not_lt.2 hspace hdamaged.1
          exact ⟨hsourced.coherent, hsourced.sourced⟩
        · exact s.sourced_bare known
      exact ⟨hsourced.1, hsourced.2.forget hsourced.1 hnone fun start bus hne =>
        hold start bus fun _ => hne⟩
    refine ⟨(options_compile s addr).symm ▸ hready, fun hintact => ?_⟩
    have hleft : (s.compile addr).2.table.Coherent s.options.enableBlockLink ∧
        (s.compile addr).2.table.Sourced s.options s.regions known' := by
      rw [htable] at hintact ⊢
      cases hattempt : (t.compile (s.lowered addr) s.options s.regions addr).result with
      | ok n =>
        obtain ⟨hcoherent, hsourced⟩ :=
          hwhole (BlockTable.le_spaceLeft_of_compile hfits.toSound hattempt)
        exact ⟨hcoherent.compile hfits.toSound hnone hattempt,
          hsourced.compile hfits.toSound hfits.standard hcoherent hnone (hnew hnumber) hattempt⟩
      | error f =>
        obtain ⟨e, rfl⟩ : ∃ e, f = .compile e := by
          rw [hattempt] at hresult
          rw [hresult] at hanswers
          cases f with
          | compile e => exact ⟨e, rfl⟩
          | breach b => rcases hanswers with ⟨_, h⟩ | h | ⟨_, _, h, _⟩ <;> cases h
        rcases BlockTable.table_compile_error_or hfits.toSound hattempt with
          ⟨hspace, hlimit⟩ | hdamaged
        · obtain ⟨hcoherent, hsourced⟩ := hwhole hspace
          rw [hlimit]
          exact ⟨hcoherent.withLimit _, hsourced.withLimit _⟩
        · exact absurd hdamaged hintact
    rw [← options_compile s addr] at hready hleft
    rw [← regions_compile s addr] at hleft
    exact ⟨hready, hleft.1, hleft.2⟩

end Accounted

/-! ## Records -/

section Recorded

variable {allowed : SessionError → Prop} {origin : UInt32 → β}

/-- The guests that blocks are lowered from, after the one at an address was compiled, unless it was
there. -/
def noted (s : Session β) (origin : UInt32 → β) (addr : UInt32) : UInt32 → β :=
  if s.table.number? addr = none then Function.update origin addr (s.lowered addr) else origin

/-- A session that a host can bring about, with the guest that each of its blocks was lowered from. No
compilation comes to an error that is not `allowed`. -/
inductive Recorded (allowed : SessionError → Prop) : Session β → (UInt32 → β) → Prop
  | create {bus : β} {options : Options} {available : Nat} {s : Session β}
      (h : create bus options available = .ok s) (origin : UInt32 → β) :
      Recorded allowed s origin
  /-- The host writes to the guest, or generated code runs. -/
  | write {s : Session β} {origin : UInt32 → β} (h : Recorded allowed s origin)
      (env : Environment β) : Recorded allowed { s with env := env } origin
  | compile {s : Session β} {origin : UInt32 → β} (h : Recorded allowed s origin) (addr : UInt32)
      (hresult : ∀ e, (s.compile addr).1 = .error e → allowed e) :
      Recorded allowed (s.compile addr).2 (s.noted origin addr)
  | clear {s : Session β} {origin : UInt32 → β} (h : Recorded allowed s origin) :
      Recorded allowed { s with table := s.table.clear } origin

theorem Recorded.reachable (h : s.Recorded allowed origin) : s.Reachable allowed := by
  induction h with
  | create h => exact .create h
  | write _ env ih => exact .write ih env
  | compile _ addr hresult ih => exact .compile ih addr hresult
  | @clear s _ _ ih => exact .write (.clear ih) s.env

/-- All that a host can bring about can be recorded. -/
theorem Reachable.exists_recorded (hs : s.Reachable allowed) : ∃ origin, s.Recorded allowed origin := by
  refine hs.keeps (I := fun s => ∃ origin, s.Recorded allowed origin)
    (fun bus options available s h => ⟨fun _ => bus, .create h _⟩) ?_ ?_ ?_
  · rintro s env ⟨origin, h⟩
    exact ⟨origin, h.write env⟩
  · rintro s addr ⟨origin, h⟩ hresult
    exact ⟨_, h.compile addr hresult⟩
  · rintro s ⟨origin, h⟩
    exact ⟨origin, h.clear⟩

/-- Compiling a block notes what it was lowered from. -/
theorem Accounted.compile_noted (h : s.Accounted fun start bus => origin start = bus) (addr : UInt32) :
    (s.compile addr).2.Accounted fun start bus => s.noted origin addr start = bus := by
  refine h.compile (fun start bus hne hknown => ?_) fun hnone => ?_
  · rw [noted]
    split
    · next hnone => exact (Function.update_of_ne (hne hnone) _ _).trans hknown
    · exact hknown
  · rw [noted, if_pos hnone]
    exact Function.update_self ..

/-- Whatever a host did before, the blocks were lowered from the guests that are on record, unless the
code was damaged. -/
theorem Recorded.accounted (h : s.Recorded allowed origin) :
    s.Accounted fun start bus => origin start = bus := by
  induction h with
  | create h => exact .of_sourced (sourced_of_create h)
  | write _ env ih => exact ih.withEnv env
  | compile _ addr _ ih => exact ih.compile_noted addr
  | clear _ ih => exact .of_sourced (sourced_clear ih.ready _)

theorem Recorded.sourced_of_intact (h : s.Recorded allowed origin) (hintact : ¬ s.table.Damaged) :
    s.Sourced fun start bus => origin start = bus :=
  h.accounted.sourced hintact

/-- Compiling a block keeps the record right, if it was. -/
theorem Sourced.compile_noted (h : s.Sourced fun start bus => origin start = bus) {n : Nat}
    (hresult : (s.compile addr).1 = .ok n) :
    (s.compile addr).2.Sourced fun start bus => s.noted origin addr start = bus := by
  cases hnumber : s.table.number? addr with
  | some m =>
    rw [compile_of_some hnumber, noted, hnumber, if_neg (by simp)]
    exact h
  | none =>
    have hforgot : s.Sourced fun start bus => s.noted origin addr start = bus := by
      refine h.forget hnumber fun start bus hne hknown => ?_
      rw [noted, if_pos hnumber]
      exact (Function.update_of_ne hne _ _).trans hknown
    refine hforgot.compile_lowered (fun _ => ?_) hresult
    rw [noted, if_pos hnumber]
    exact Function.update_self ..

/-- If no block fails to compile, the record is right. -/
theorem Recorded.sourced (h : s.Recorded OnlyFaults origin) :
    s.Sourced fun start bus => origin start = bus := by
  induction h with
  | create h => exact sourced_of_create h
  | write _ env ih => exact ⟨ih.ready, ih.coherent, ih.sourced⟩
  | @compile s _ _ addr hresult ih =>
    cases hcompile : (s.compile addr).1 with
    | ok n => exact ih.compile_noted hcompile
    | error e =>
      obtain ⟨f, rfl⟩ := exists_failure_of_compile hcompile
      exact absurd (hresult _ hcompile) (not_onlyFaults_ofFailure f)
  | clear _ ih => exact sourced_clear ih.ready _

end Recorded

end Session

end Recompiler
