import Recompiler.Block.Table
import Recompiler.Proofs.Code.Layout

/-!
# Linking blocks

What linking does to a table: it marks exits as linked and overwrites the distances of their jumps,
and it changes nothing else.

* `Arena.Leads`: a jump of five bytes goes to an offset.
* `BlockTable.linkExitList_eq`: the exits of a list that wait for a guest address are sent to an
  offset, and the others lead where they led.
* `BlockTable.Relinks`: two tables that differ in links only.
* `BlockTable.linkExits_eq`: linking the exits of one block.
-/

namespace Recompiler

namespace Arena

/-- The jump of five bytes at `offset` goes to `aim`. -/
def Leads (a : Arena) (offset aim : Nat) : Prop :=
  HasBytes a.written offset (HostInstruction.jump (jumpDistance aim (offset + 5))).encode

/-- `b` is `a` with other bytes. -/
structure Repaints (a b : Arena) : Prop where
  others : b = { a with written := b.written }
  size : b.size = a.size

namespace Repaints

variable {a b c : Arena}

theorem refl (a : Arena) : a.Repaints a :=
  ⟨rfl, rfl⟩

theorem trans (h : a.Repaints b) (h' : b.Repaints c) : a.Repaints c := by
  refine ⟨?_, h'.size.trans h.size⟩
  rw [h'.others, h.others]

theorem patchJump (a : Arena) (start target : Nat) : a.Repaints (a.patchJump start target).2 := by
  refine ⟨?_, size_patch a _ _⟩
  simp only [Arena.patchJump, patch_snd]

end Repaints

variable {a b : Arena} {start target aim : Nat}

/-- Sending a jump that lies in the written code overwrites its last four bytes. -/
theorem patchJump_eq (h : start + 5 ≤ a.size) (h64 : a.size < UInt64.size) :
    a.patchJump start target =
      (true, { a with
        written := overwrite a.written (start + 1)
          (Word.bytes (jumpDistance target (start + 5))) }) := by
  rw [patchJump, patchOffset_eq (by omega), patch, if_pos (by rw [length_wordBytes]; omega)]

/-- A jump leads where it is sent. -/
theorem leads_patchJump (hleads : a.Leads start aim) (h : start + 5 ≤ a.size)
    (h64 : a.size < UInt64.size) : (a.patchJump start target).2.Leads start target := by
  rw [patchJump_eq h h64]
  refine hasBytes_jump.2 ⟨(hasBytes_jump.1 hleads).1.of_eq fun i _ hi => ?_, ?_⟩
  · exact getElem?_overwrite_of_lt _ (by simpa using hi)
  · exact hasBytes_overwrite (by rw [length_wordBytes]; exact h)

theorem written_patchJump (h : start + 5 ≤ a.size) (h64 : a.size < UInt64.size) {i : Nat}
    (hi : i ≤ start ∨ start + 5 ≤ i) :
    (a.patchJump start target).2.written[i]? = a.written[i]? := by
  rw [patchJump_eq h h64]
  rcases hi with hi | hi
  · exact getElem?_overwrite_of_lt _ (by omega)
  · exact getElem?_overwrite_of_le (by rw [length_wordBytes]; omega)

/-- A jump whose bytes stay the same leads where it led. -/
theorem Leads.of_eq (h : a.Leads start aim)
    (heq : ∀ i, start ≤ i → i < start + 5 → b.written[i]? = a.written[i]?) : b.Leads start aim :=
  HasBytes.of_eq h heq

/-- In an arena of two gibibytes or less, a jump that leads somewhere is decoded to lead there. -/
theorem destination?_of_leads (h : a.Leads start aim) (hsize : a.size ≤ 0x80000000)
    (haim : aim < 0x80000000) :
    a.written[start]? = some 0xE9 ∧ a.destination? start = some (aim : Int) := by
  have hfits : start + 5 ≤ a.size := h.le_size (by simp [HostInstruction.encode,
    HostInstruction.pieces])
  obtain ⟨hopcode, hdistance⟩ := hasBytes_jump.1 h
  have hbytes : a.bytes (start + 1) 4 = Word.bytes (jumpDistance aim (start + 5)) :=
    hdistance.bytes_eq (by change start + 1 + 4 < 2 ^ 64; omega)
  refine ⟨hopcode 0 (by simp), ?_⟩
  rw [destination?, if_pos hfits, hbytes, Word.ofBytes_bytes,
    ← @toInt_jumpDistance aim (start + 5) (by omega) (by omega)]
  push_cast
  rfl

end Arena

namespace Exit

/-- The exit is not linked and leads to `target`. -/
def awaits (e : Exit) (target : UInt32) : Bool :=
  e.target = target ∧ !e.linked

/-- The exit after it was linked, if it leads to `target`. -/
def sent (target : UInt32) (e : Exit) : Exit :=
  if e.awaits target then { e with linked := true } else e

@[simp] theorem target_sent (target : UInt32) (e : Exit) : (e.sent target).target = e.target := by
  unfold sent
  split <;> rfl

@[simp] theorem offset_sent (target : UInt32) (e : Exit) : (e.sent target).offset = e.offset := by
  unfold sent
  split <;> rfl

theorem linked_sent (target : UInt32) (e : Exit) :
    (e.sent target).linked = (e.linked || decide (e.target = target)) := by
  obtain ⟨t, offset, linked⟩ := e
  cases linked <;> by_cases h : t = target <;> simp [sent, awaits, h]

end Exit

namespace BlockTable

/-! ## The exits of one block -/

/-- Sending exits keeps to the exits, and sends just those that wait. -/
theorem linkExitList_eq {code : Arena} (target : UInt32) (entry : Nat) {exits : List Exit}
    (hapart : exits.Pairwise fun e e' => e.offset + 5 ≤ e'.offset)
    (hwithin : ∀ e ∈ exits, e.offset + 5 ≤ code.size) (h64 : code.size < UInt64.size) :
    ∃ code' linked,
      linkExitList code target entry exits = (exits.map (·.sent target), code', linked, []) ∧
      code.Repaints code' ∧
      (∀ i, (∀ e ∈ exits, i ≤ e.offset ∨ e.offset + 5 ≤ i) →
        code'.written[i]? = code.written[i]?) ∧
      ∀ e ∈ exits, ∀ aim, code.Leads e.offset aim →
        code'.Leads e.offset (if e.awaits target then entry else aim) := by
  -- Exits are sent from front to back. They lie apart, so what is sent later is not touched before.
  induction exits generalizing code with
  | nil => exact ⟨code, false, rfl, .refl code, fun _ _ => rfl, by simp⟩
  | cons e rest ih =>
    obtain ⟨hbehind, hapart⟩ := List.pairwise_cons.1 hapart
    have he := hwithin e List.mem_cons_self
    have hrest : ∀ e' ∈ rest, e'.offset + 5 ≤ code.size := fun e' he' =>
      hwithin e' (List.mem_cons_of_mem _ he')
    by_cases hawaits : e.awaits target = true
    · have hpatch : (code.patchJump e.offset entry).1 = true := by rw [Arena.patchJump_eq he h64]
      have hrepaints := Arena.Repaints.patchJump code e.offset entry
      have hrest' : ∀ e' ∈ rest, e'.offset + 5 ≤ (code.patchJump e.offset entry).2.size := by
        rw [hrepaints.size]
        exact hrest
      obtain ⟨code', linked, heq, hcode, hframe, hleads⟩ :=
        ih hapart hrest' (by rw [hrepaints.size]; exact h64)
      refine ⟨code', true, ?_, hrepaints.trans hcode, fun i hi => ?_, fun e' he' aim haim => ?_⟩
      · rw [linkExitList, if_pos (by simpa [Exit.awaits] using hawaits)]
        rcases hrun : code.patchJump e.offset entry with ⟨written, code₁⟩
        rw [hrun] at hpatch heq
        dsimp only at hpatch heq ⊢
        rw [hpatch, heq, if_pos rfl, List.map_cons, Exit.sent, if_pos hawaits]
      · rw [hframe i fun e' he' => hi e' (List.mem_cons_of_mem _ he')]
        exact Arena.written_patchJump he h64 (hi e List.mem_cons_self)
      · rcases List.mem_cons.1 he' with rfl | he'
        · -- The first exit is sent now, and what follows lies behind it.
          rw [if_pos hawaits]
          refine (Arena.leads_patchJump haim he h64).of_eq fun i _ hi => hframe i fun e' he' => ?_
          have := hbehind e' he'
          omega
        · refine hleads e' he' aim (haim.of_eq fun i hi _ => ?_)
          have := hbehind e' he'
          exact Arena.written_patchJump he h64 (by omega)
    · obtain ⟨code', linked, heq, hcode, hframe, hleads⟩ := ih hapart hrest h64
      refine ⟨code', linked, ?_, hcode, fun i hi => ?_, fun e' he' aim haim => ?_⟩
      · rw [linkExitList, if_neg (by simpa [Exit.awaits] using hawaits), heq, List.map_cons,
          Exit.sent, if_neg hawaits]
      · exact hframe i fun e' he' => hi e' (List.mem_cons_of_mem _ he')
      · rcases List.mem_cons.1 he' with rfl | he'
        · rw [if_neg hawaits]
          refine haim.of_eq fun i _ hi => hframe i fun e' he' => ?_
          have := hbehind e' he'
          omega
        · exact hleads e' he' aim haim

end BlockTable

/-! ## Tables that differ in links -/

/-- The block without the marks of its exits. -/
def Block.unlinked (b : Block) : Block :=
  { b with exits := b.exits.map fun e => { e with linked := false } }

namespace BlockTable

/-- `u` is `t` with other links. -/
structure Relinks (t u : BlockTable) : Prop where
  code : t.code.Repaints u.code
  blocks : u.blocks.map Block.unlinked = t.blocks.map Block.unlinked
  byStart : u.byStart = t.byStart
  stubs : u.stubs = t.stubs
  maxBlocks : u.maxBlocks = t.maxBlocks

namespace Relinks

variable {t u v : BlockTable}

theorem refl (t : BlockTable) : t.Relinks t :=
  ⟨.refl _, rfl, rfl, rfl, rfl⟩

theorem trans (h : t.Relinks u) (h' : u.Relinks v) : t.Relinks v where
  code := h.code.trans h'.code
  blocks := h'.blocks.trans h.blocks
  byStart := h'.byStart.trans h.byStart
  stubs := h'.stubs.trans h.stubs
  maxBlocks := h'.maxBlocks.trans h.maxBlocks

theorem size_eq (h : t.Relinks u) : u.size = t.size := by
  have hsize := congrArg Array.size h.blocks
  rwa [Array.size_map, Array.size_map] at hsize

theorem number?_eq (h : t.Relinks u) (addr : UInt32) : u.number? addr = t.number? addr := by
  rw [number?, number?, h.byStart]

/-- Blocks keep everything but the marks of their exits. -/
theorem block?_eq (h : t.Relinks u) (n : Nat) :
    (u.block? n).map Block.unlinked = (t.block? n).map Block.unlinked := by
  rw [block?, block?, ← Array.getElem?_map, ← Array.getElem?_map, h.blocks]

theorem exists_block (h : t.Relinks u) {n : Nat} {b : Block} (hb : t.blocks[n]? = some b) :
    ∃ b', u.blocks[n]? = some b' ∧ b'.unlinked = b.unlinked := by
  have heq := h.block?_eq n
  rw [block?, block?, hb, Option.map_some] at heq
  exact Option.map_eq_some_iff.1 heq

theorem noteLink (t : BlockTable) (n : Nat) (target : UInt32) : t.Relinks (t.noteLink n target) :=
  ⟨.refl _, rfl, rfl, rfl, rfl⟩

end Relinks

variable {t u : BlockTable} {events : List Event}

/-- Sending exits changes nothing but their marks and some bytes. -/
theorem repaints_linkExitList (code : Arena) (target : UInt32) (entry : Nat) (exits : List Exit) :
    code.Repaints (linkExitList code target entry exits).2.1 ∧
      (linkExitList code target entry exits).1.map (fun e => { e with linked := false }) =
        exits.map fun e => { e with linked := false } := by
  induction exits generalizing code with
  | nil => exact ⟨.refl code, rfl⟩
  | cons e rest ih =>
    rw [linkExitList]
    split
    · have hpatch := Arena.Repaints.patchJump code e.offset entry
      obtain ⟨hcode, hexits⟩ := ih (code.patchJump e.offset entry).2
      dsimp only
      split
      · exact ⟨hpatch.trans hcode, by rw [List.map_cons, List.map_cons, hexits]⟩
      · exact ⟨hpatch.trans hcode, by rw [List.map_cons, List.map_cons, hexits]⟩
    · obtain ⟨hcode, hexits⟩ := ih code
      exact ⟨hcode, by rw [List.map_cons, List.map_cons, hexits]⟩

theorem relinks_linkExits {source n : Nat} {target : UInt32}
    (h : t.linkExits source target n = .ok (u, events)) : t.Relinks u := by
  unfold linkExits at h
  cases hn : t.blocks[n]? with
  | none =>
    rw [hn] at h
    cases h
  | some destination =>
    cases hsource : t.blocks[source]? with
    | none =>
      rw [hn, hsource] at h
      cases h
    | some block =>
      rw [hn, hsource] at h
      obtain ⟨hcode, hexits⟩ :=
        repaints_linkExitList t.code target destination.normalEntry block.exits.toList
      cases h
      refine ⟨hcode, ?_, rfl, rfl, rfl⟩
      -- Only the block with these exits is written, and they are as before but for links.
      apply Array.ext_getElem?
      intro i
      rw [Array.getElem?_map, Array.getElem?_map, Array.getElem?_modify]
      split
      · next hi =>
        subst hi
        rw [hsource, Option.map_some, Option.map_some, Option.map_some, Block.unlinked,
          Block.unlinked]
        refine congrArg (fun exits => some { block with exits := exits }) (Array.ext' ?_)
        rw [Array.toList_map, Array.toList_map]
        exact hexits
      · rfl

theorem linkAll_cons (t : BlockTable) (source : Nat) (target : UInt32) (n : Nat)
    (rest : List (Nat × UInt32 × Nat)) :
    t.linkAll ((source, target, n) :: rest) =
      match t.linkExits source target n with
      | .error b => .error b
      | .ok (v, events) =>
        match v.linkAll rest with
        | .error b => .error b
        | .ok (u, more) => .ok (u, events ++ more) := by
  rw [linkAll]
  cases t.linkExits source target n with
  | error b => rfl
  | ok r =>
    obtain ⟨v, events⟩ := r
    dsimp only
    change (v.linkAll rest >>= fun x => pure (x.1, events ++ x.2) : Except Breach _) = _
    cases v.linkAll rest <;> rfl

/-- The links of an exit that goes to `target`. -/
theorem linkOut_cons (n : Nat) (t : BlockTable) (target : UInt32) (rest : List UInt32) :
    linkOut n t (target :: rest) =
      match (t.noteLink n target).number? target with
      | none => linkOut n (t.noteLink n target) rest
      | some destination =>
        match (t.noteLink n target).linkExits n target destination with
        | .error b => .error b
        | .ok (v, events) =>
          match linkOut n v rest with
          | .error b => .error b
          | .ok (u, more) => .ok (u, events ++ more) := by
  rw [linkOut]
  cases (t.noteLink n target).number? target with
  | none =>
    cases h : linkOut n (t.noteLink n target) rest <;>
      simp only [bind, Except.bind, pure, Except.pure, h, List.nil_append]
  | some destination =>
    dsimp only
    cases (t.noteLink n target).linkExits n target destination with
    | error b => rfl
    | ok r =>
      obtain ⟨v, events⟩ := r
      dsimp only
      change (linkOut n v rest >>= fun x => pure (x.1, events ++ x.2) : Except Breach _) = _
      cases linkOut n v rest <;> rfl

theorem relinks_linkAll {links : List (Nat × UInt32 × Nat)}
    (h : t.linkAll links = .ok (u, events)) : t.Relinks u := by
  induction links generalizing t events with
  | nil =>
    cases h
    exact .refl _
  | cons link rest ih =>
    obtain ⟨source, target, n⟩ := link
    rw [linkAll_cons] at h
    split at h
    · cases h
    · next v _ hlink =>
      split at h
      · cases h
      · next hrest =>
        cases h
        exact (relinks_linkExits hlink).trans (ih hrest)

theorem relinks_linkOut {n : Nat} {targets : List UInt32}
    (h : linkOut n t targets = .ok (u, events)) : t.Relinks u := by
  induction targets generalizing t events with
  | nil =>
    cases h
    exact .refl _
  | cons target rest ih =>
    refine (Relinks.noteLink t n target).trans ?_
    rw [linkOut_cons] at h
    split at h
    · exact ih h
    · split at h
      · cases h
      · next v _ hlink =>
        split at h
        · cases h
        · next hrest =>
          cases h
          exact (relinks_linkExits hlink).trans (ih hrest)

/-- The table with block `n` published and not linked. -/
def enlisted (t : BlockTable) (n : Nat) (b : Block) : BlockTable :=
  { t with
    blocks := t.blocks.modify n fun b' =>
      { b' with codeSize := (t.code.size.toUInt64 - b.checkedEntry.toUInt64).toNat }
    byStart := t.byStart.insert b.start n }

/-- Publishing a block with a number. -/
theorem finalize_eq {n : Nat} {b : Block} (hb : t.blocks[n]? = some b) (link : Bool) :
    t.finalize n link =
      let codeSize := (t.code.size.toUInt64 - b.checkedEntry.toUInt64).toNat
      let last := Event.finalized n b.start b.instructions codeSize
      if link then
        match linkOut n (t.enlisted n b) (b.exits.toList.map (·.target)) with
        | .error e => .error e
        | .ok (v, out) =>
          match v.linkIn n b.start with
          | .error e => .error e
          | .ok (u, back) => .ok (u, out ++ back ++ [last])
      else .ok (t.enlisted n b, [last]) := by
  unfold finalize
  rw [hb]
  cases link with
  | false => rfl
  | true =>
    change (linkOut n (t.enlisted n b) (b.exits.toList.map (·.target)) >>= fun out =>
      out.1.linkIn n b.start >>= fun back => pure (back.1, out.2 ++ back.2 ++ [_]) :
      Except Breach _) = _
    cases linkOut n (t.enlisted n b) (b.exits.toList.map (·.target)) with
    | error e => rfl
    | ok out =>
      change (out.1.linkIn n b.start >>= fun back => pure (back.1, out.2 ++ back.2 ++ [_]) :
        Except Breach _) = _
      cases h : out.1.linkIn n b.start <;> simp only [h] <;> rfl

/-- A published block is linked, and that is all that happens to the table. -/
theorem relinks_finalize {n : Nat} {b : Block} {link : Bool} (hb : t.blocks[n]? = some b)
    (h : t.finalize n link = .ok (u, events)) : (t.enlisted n b).Relinks u := by
  rw [finalize_eq hb] at h
  dsimp only at h
  split at h
  · split at h
    · cases h
    · next hout =>
      split at h
      · cases h
      · next hin =>
        cases h
        exact (relinks_linkOut hout).trans (relinks_linkAll hin)
  · cases h
    exact .refl _

end BlockTable

end Recompiler
