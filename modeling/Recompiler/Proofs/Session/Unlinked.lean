import Recompiler.Proofs.Session.Entering

/-!
# Sessions without links

Where blocks are not linked, a block that gets compiled is put behind the others, and these stay as they
are. What compiling leaves is then given by a formula that looks nothing up, and can be evaluated.

* `Session.Admits`, `Session.withBlock`: whether a block gets compiled, and the session afterwards.
* `Session.compile_of_admits`: compiling does what the formula tells.
-/

namespace Recompiler

namespace Session

variable {β : Type} [Bus β] {s : Session β} {addr : UInt32}

/-- There is room for the block at an address, and its instructions can be lowered. -/
def Admits (s : Session β) (addr : UInt32) : Bool :=
  let l := s.table.lower s.env.bus s.options s.regions addr
  !s.table.isFull && decide (s.options.reservedCodeMargin ≤ s.table.spaceLeft) && l.1.isOk &&
    !(s.table.extended l.2).code.overflowed

/-- The session with the block at an address, which is linked to no other. -/
def withBlock (s : Session β) (addr : UInt32) : Session β :=
  let r := (s.table.lower s.env.bus s.options s.regions addr).2
  let size := ((s.table.extended r).code.size.toUInt64 - s.table.code.size.toUInt64).toNat
  { s with
    env := ⟨s.env.state, r.bus,
      s.env.events ++ (r.events ++ [Event.finalized s.table.size addr r.instructions size])⟩
    table := s.table.grown addr r }

/-- A block is put behind the others. -/
theorem table_compile_of_admits (hsound : s.table.Sound) (hlink : s.options.enableBlockLink = false)
    (h : s.Admits addr = true) :
    let c := s.table.compile s.env.bus s.options s.regions addr
    c.result = .ok s.table.size ∧ c.table = (s.withBlock addr).table ∧
      c.bus = (s.withBlock addr).env.bus ∧ s.env.events ++ c.events = (s.withBlock addr).env.events := by
  simp only [Admits, Bool.and_eq_true, Bool.not_eq_true', decide_eq_true_eq] at h
  obtain ⟨⟨⟨hfull, -⟩, hok⟩, hclean⟩ := h
  rw [BlockTable.compile_of_not_full hfull, withBlock]
  generalize s.table.lower s.env.bus s.options s.regions addr = l at hok hclean ⊢
  obtain ⟨_ | ⟨⟨⟩⟩, r⟩ := l
  · cases hok
  dsimp only at hclean ⊢
  obtain ⟨hnew, henlisted⟩ := BlockTable.enlisted_assembled hsound addr r
  rw [hclean, hlink]
  dsimp only
  rw [BlockTable.finalize_eq hnew, henlisted]
  exact ⟨rfl, rfl, rfl, rfl⟩

/-- A block that is admitted gets compiled. -/
theorem compile_of_admits (hfits : s.table.Fits s.options) (hlink : s.options.enableBlockLink = false)
    (hdump : s.options.dumpBlocks = false) (hnumber : s.table.number? addr = none)
    (h : s.Admits addr = true) : s.compile addr = (.ok s.table.size, s.withBlock addr) := by
  obtain ⟨hresult, htable, hbus, hevents⟩ := table_compile_of_admits hfits.toSound hlink h
  -- Nothing needs to be cleared: there is a free slot, and the margin is left.
  have hroom : s.makeRoom = s := by
    simp only [Admits, Bool.and_eq_true, Bool.not_eq_true', decide_eq_true_eq] at h
    obtain ⟨⟨⟨hfull, hspace⟩, -⟩, -⟩ := h
    rw [makeRoom, if_neg]
    rintro (hno | hno)
    · rw [hfull] at hno
      cases hno
    · omega
  have hblock : s.compileBlock addr = (.ok s.table.size, s.withBlock addr) := by
    change (_, (⟨⟨s.env.state, _, s.env.events ++ _⟩, _, s.options, s.regions⟩ : Session β)) = _
    rw [hresult, htable, hbus, hevents]
    rfl
  have hdump' : (s.withBlock addr).options.dumpBlocks = false := hdump
  rw [compile, hnumber]
  dsimp only
  rw [hroom, compileRetrying, hblock]
  dsimp only
  rw [if_neg (by rw [hdump']; decide)]

/-- Options under which blocks are not linked, with an arena of one kibibyte. -/
def unlinked : Options :=
  { small with enableBlockLink := false }

/-- The first block of a new session. -/
theorem compile_unused (bus : β) (hvalid : unlinked.validate (Bus.fastRegions bus) = .ok ())
    (hadmits : (unused bus unlinked).Admits addr = true) :
    (unused bus unlinked).compile addr = (.ok 0, (unused bus unlinked).withBlock addr) := by
  have hnew : Reachable OnlyFaults (unused bus unlinked) :=
    .create (create_of_valid hvalid (by decide) (by decide))
  refine compile_of_admits hnew.fits rfl rfl ?_ hadmits
  exact Std.HashMap.getElem?_empty

/-- It is on record what this block was lowered from. -/
theorem recorded_unused {allowed : SessionError → Prop} (bus : β)
    (hvalid : unlinked.validate (Bus.fastRegions bus) = .ok ())
    (hadmits : (unused bus unlinked).Admits addr = true) :
    ((unused bus unlinked).withBlock addr).Recorded allowed
      ((unused bus unlinked).noted (fun _ => bus) addr) := by
  have hnew : (unused bus unlinked).Recorded allowed fun _ => bus :=
    .create (create_of_valid hvalid (by decide) (by decide)) _
  have hcompile := compile_unused bus hvalid hadmits
  have hs := hnew.compile addr fun e he => by rw [hcompile] at he; cases he
  rwa [hcompile] at hs

theorem number?_withBlock (s : Session β) (addr x : UInt32) :
    (s.withBlock addr).table.number? x = if x = addr then some s.table.size else s.table.number? x :=
  BlockTable.number?_grown _ x

end Session

end Recompiler
