import Recompiler.Proofs.Block.Discard
import Recompiler.Proofs.Block.Wiring

/-!
# Coherent tables

What holds of a table whenever no block is being compiled: the index, the places of the blocks, the
marks of the exits and the jumps in the code agree with each other.

* `BlockTable.Coherent`: the invariant.
* `BlockTable.laidOut_extended`: where the code of a new block lies.
* `BlockTable.linkable_grown`: the table with a new block that is not linked yet.
* `BlockTable.Coherent.compile`: compiling a block keeps a table coherent.
-/

namespace Recompiler

namespace Layout

variable (offset : Nat) (stubs : Stubs) (start : UInt32) (rest : List Item)

theorem stop_entryItems :
    stop offset (Lower.entryItems stubs start ++ rest) = stop (offset + 30) rest := rfl

theorem entry_entryItems :
    entry offset offset (Lower.entryItems stubs start ++ rest) =
      entry (offset + 30) (offset + 30) rest := rfl

end Layout

namespace BlockTable

variable {β : Type} {t u : BlockTable} {link : Bool}

/-- The index, the places, the marks and the jumps of a table agree. -/
structure Coherent (link : Bool) (t : BlockTable) : Prop where
  indexed : ∀ addr n, t.number? addr = some n ↔ ∃ b, t.blocks[n]? = some b ∧ b.start = addr
  few : t.blocks.size ≤ t.maxBlocks
  tiles : Tiles Stubs.length t.blocks.toList t.code.size
  aligned : t.code.size % Lower.blockAlignment = 0
  stubs : ∀ i < Stubs.length, t.code.written[i]? = Stubs.code[i]?
  wired : t.Wired
  linked : ∀ (n : Nat) (b : Block), t.blocks[n]? = some b → ∀ e ∈ b.exits,
    e.linked = (link && (t.number? e.target).isSome)
  noted : link = true → ∀ (n : Nat) (b : Block), t.blocks[n]? = some b → ∀ e ∈ b.exits,
    n ∈ t.linksTo.getD e.target []
  known : ∀ x, ∀ m ∈ t.linksTo.getD x [], m < t.blocks.size

theorem Coherent.lt_size (hc : t.Coherent link) {addr : UInt32} {n : Nat}
    (hn : t.number? addr = some n) : n < t.size := by
  obtain ⟨b, hb, -⟩ := (hc.indexed addr n).1 hn
  exact (Array.getElem?_eq_some_iff.1 hb).1

theorem Coherent.isSome_blockAt? (hc : t.Coherent link) (x : UInt32) :
    (t.blockAt? x).isSome = (t.number? x).isSome := by
  rw [blockAt?]
  cases hn : t.number? x with
  | none => rfl
  | some n =>
    rw [Option.bind_some, block?, Array.getElem?_eq_getElem (hc.lt_size hn)]
    rfl

/-! ## The code of a new block -/

variable [Bus β] {bus : β} {options : Options} {regions : List FastRegion} {start : UInt32}

/-- The entries that a new block may jump to are those of the blocks in the table. -/
theorem Coherent.entryAt_opened (hc : t.Coherent link) (start x : UInt32) :
    (t.opened start).entryAt t.size x =
      (t.blockAt? x).map fun b => .offset b.normalEntry := by
  rw [entryAt, blockAt?, show (t.opened start).number? x = t.number? x from rfl]
  cases hx : t.number? x with
  | none => rfl
  | some n =>
    have hlt := hc.lt_size hx
    have hblock : (t.opened start).block? n = t.block? n := by
      refine (Array.getElem?_push ..).trans (if_neg (Nat.ne_of_lt hlt))
    rw [Option.bind_some, Option.bind_some, if_neg (Nat.ne_of_lt hlt), hblock]

/-- What a new block is lowered with. -/
def surroundings (t : BlockTable) (options : Options) (regions : List FastRegion)
    (start : UInt32) : Surroundings :=
  ⟨options, regions, t.stubs, (t.opened start).entryAt t.size⟩

/-- A lowered block for which there was room is laid out behind the others. -/
theorem laidOut_extended (ht : t.Sound)
    (hok : (t.lower bus options regions start).1 = .ok ())
    (hclean : (t.extended (t.lower bus options regions start).2).code.overflowed = false) :
    ∃ more, (t.lower bus options regions start).2.code.toList =
        Lower.entryItems t.stubs start ++ more ++ [.align Lower.blockAlignment] ∧
      (∀ i ∈ more, i.isPlain = true ∨
        ∃ x, i = (t.surroundings options regions start).exitItem x) ∧
      (Assembly.start t.reserved).LaidOut
        (Lower.entryItems t.stubs start ++ more ++ [.align Lower.blockAlignment])
        (t.extended (t.lower bus options regions start).2) := by
  obtain ⟨more, hcode, hunique, hmore⟩ :=
    Lower.items_block start (t.surroundings options regions start) bus hok
  change (t.lower bus options regions start).2.code.toList =
    Lower.entryItems t.stubs start ++ more ++ [.align Lower.blockAlignment] at hcode
  refine ⟨more, hcode, hmore, ?_⟩
  have hroom : t.reserved.size ≤ t.reserved.limit := by
    rw [reserved_eq ht.room]
    exact ht.room
  have hlimit : t.reserved.limit < UInt64.size := by
    rw [reserved_eq ht.room]
    exact ht.capacity_lt
  rw [← hcode]
  refine Arena.laidOut_assemble ?_ hclean hroom hlimit
  rw [hcode]
  exact hunique

/-- The code of a new block stands behind the code that was there. Its entry is marked behind 30 bytes,
and the filler reaches past it. -/
theorem place_extended (ht : t.Sound) (hok : (t.lower bus options regions start).1 = .ok ())
    (hclean : (t.extended (t.lower bus options regions start).2).code.overflowed = false) :
    let s := t.extended (t.lower bus options regions start).2
    s.entry = t.code.size + 30 ∧ t.code.size + 30 ≤ s.code.size ∧
      s.code.size % Lower.blockAlignment = 0 ∧
      ∀ i < t.code.size, s.code.written[i]? = t.code.written[i]? := by
  intro s
  obtain ⟨more, -, hmore, hlaid⟩ := laidOut_extended ht hok hclean
  have hsize := size_start_reserved ht.room
  have hstop := hlaid.size
  have hentry := hlaid.entry
  rw [hsize] at hstop hentry
  refine ⟨?_, ?_, ?_, fun i hi => ?_⟩
  · have hstart : (Assembly.start t.reserved).entry = t.code.size := hsize
    rw [show s.entry = _ from hentry, hstart, List.append_assoc, Layout.entry_entryItems,
      Layout.entry_eq]
    -- Nothing but the entry is marked.
    intro hmem
    rcases List.mem_append.1 hmem with hmem | hmem
    · rcases hmore _ hmem with hplain | ⟨x, hx⟩
      · cases hplain
      · cases hx
    · simp at hmem
  · rw [show s.code.size = _ from hstop, List.append_assoc, Layout.stop_entryItems]
    exact Layout.le_stop _ _
  · rw [show s.code.size = _ from hstop]
    exact Layout.stop_align _ _ _ (by decide)
  · rw [hlaid.frame i (hsize.symm ▸ hi) fun label _ stop hlookup => by cases hlookup]
    change t.reserved.written[i]? = _
    rw [reserved_eq ht.room]

/-- The exits of a new block: marked if their targets have blocks, inside the code of the block one
behind the other, and leading where their marks say. -/
theorem exits_extended (ht : t.Sound) (hc : t.Coherent options.enableBlockLink)
    (hok : (t.lower bus options regions start).1 = .ok ())
    (hclean : (t.extended (t.lower bus options regions start).2).code.overflowed = false) :
    let s := t.extended (t.lower bus options regions start).2
    (∀ e ∈ s.exits, t.code.size ≤ e.offset ∧ e.offset + 5 ≤ s.code.size) ∧
      s.exits.toList.Pairwise (fun e e' => e.offset + 5 ≤ e'.offset) ∧
      ∀ e ∈ s.exits, e.linked = (options.enableBlockLink && (t.number? e.target).isSome) ∧
        ∃ aim, t.aim? e = some aim ∧ s.code.Leads e.offset aim := by
  obtain ⟨more, -, hmore, hlaid⟩ := laidOut_extended ht hok hclean
  intro s
  have hsize := size_start_reserved ht.room
  have hexits := hlaid.exits
  rw [hsize] at hexits
  have hleads := hlaid.leads
  rw [hsize] at hleads
  have hstop := hlaid.size
  rw [hsize] at hstop
  have hlist : s.exits.toList = (Layout.exits (Assembly.start t.reserved).entry t.code.size
      (Lower.entryItems t.stubs start ++ more ++ [.align Lower.blockAlignment])).map (·.1) := by
    rw [show s.exits = _ from hexits, Array.toList_append]
    rfl
  generalize (Assembly.start t.reserved).entry = entry₀ at hlist hleads
  have hmem (e : Exit) (he : e ∈ s.exits) : ∃ aim, (e, aim) ∈ Layout.exits entry₀ t.code.size
      (Lower.entryItems t.stubs start ++ more ++ [.align Lower.blockAlignment]) := by
    rw [← Array.mem_toList_iff, hlist] at he
    obtain ⟨⟨e, aim⟩, hpair, rfl⟩ := List.mem_map.1 he
    exact ⟨aim, hpair⟩
  refine ⟨fun e he => ?_, ?_, fun e he => ?_⟩
  · obtain ⟨aim, hpair⟩ := hmem e he
    have hwithin := Layout.exits_within hpair
    rw [← hstop] at hwithin
    exact hwithin
  · rw [hlist, List.pairwise_map]
    exact Layout.exits_pairwise _ _ _
  · obtain ⟨aim, hpair⟩ := hmem e he
    obtain ⟨destination, entry', hleave, haim⟩ := Layout.exists_leave_of_mem_exits hpair
    dsimp only at hleave haim
    -- Exits stand between the entry and the filler.
    have hitem : ∃ x, Item.leave e.target destination e.linked =
        (t.surroundings options regions start).exitItem x := by
      rcases List.mem_append.1 hleave with hleave | hleave
      · rcases List.mem_append.1 hleave with hleave | hleave
        · simp [Lower.entryItems] at hleave
        · exact (hmore _ hleave).resolve_left (by simp [Item.isPlain])
      · simp at hleave
    obtain ⟨x, hx⟩ := hitem
    -- An exit is marked, and aimed at a block, if there is one for its target.
    simp only [Surroundings.exitItem, surroundings, hc.entryAt_opened, Item.leave.injEq] at hx
    obtain ⟨rfl, rfl, hmark⟩ := hx
    have hnumber := hc.isSome_blockAt? e.target
    have hlinked : e.linked = (options.enableBlockLink && (t.number? e.target).isSome) := by
      rw [hmark, ← hnumber]
      cases options.enableBlockLink <;> cases t.blockAt? e.target <;> rfl
    refine ⟨hlinked, aim, ?_, hleads (e, aim) hpair⟩
    rw [haim, aim?, hlinked, ← hnumber]
    cases options.enableBlockLink <;> cases t.blockAt? e.target <;> rfl

/-! ## The table with a new block -/

/-- The new block as it is published. -/
def newBlock (t : BlockTable) (start : UInt32) (r : Lowering β) : Block :=
  ⟨start, r.instructions, (t.extended r).code.size - t.code.size, t.code.size,
    (t.extended r).entry, (t.extended r).exits⟩

/-- The table with the new block behind the others, which is not linked yet. -/
def grown (t : BlockTable) (start : UInt32) (r : Lowering β) : BlockTable :=
  { t with
    code := (t.extended r).code.takeOverflow.2
    blocks := t.blocks.push (t.newBlock start r)
    byStart := t.byStart.insert start t.size }

omit [Bus β] in
/-- Publishing a block records the size of its code. -/
theorem enlisted_assembled (ht : t.Sound) (start : UInt32) (r : Lowering β) :
    (t.assembled start r).blocks[t.size]? = some ⟨start, r.instructions, 0, t.code.size,
        (t.extended r).entry, (t.extended r).exits⟩ ∧
      (t.assembled start r).enlisted t.size ⟨start, r.instructions, 0, t.code.size,
        (t.extended r).entry, (t.extended r).exits⟩ = t.grown start r := by
  refine ⟨Array.getElem?_push_size, ?_⟩
  have hsize := size_extended ht.room r
  have hcapacity := ht.capacity_lt
  have hlength : ((t.extended r).code.size.toUInt64 - t.code.size.toUInt64).toNat =
      (t.extended r).code.size - t.code.size := by
    have hnew := toNat_toUInt64 (n := (t.extended r).code.size) (by omega)
    have hold := toNat_toUInt64 (n := t.code.size) (by omega)
    rw [UInt64.toNat_sub_of_le, hnew, hold]
    rw [UInt64.le_iff_toNat_le, hnew, hold]
    exact hsize.1
  have hcode : (t.assembled start r).code.size = (t.extended r).code.size := rfl
  rw [enlisted, hcode, hlength, grown]
  exact congrArg (fun blocks => { t.grown start r with blocks := blocks })
    (modify_push_size t.blocks _ _)

omit [Bus β] in
theorem number?_grown (r : Lowering β) (x : UInt32) :
    (t.grown start r).number? x = if x = start then some t.size else t.number? x := by
  rw [number?, grown, Std.HashMap.getElem?_insert]
  by_cases hx : start = x
  · rw [if_pos (by simpa using hx), if_pos hx.symm]
  · rw [if_neg (by simpa using hx), if_neg fun h => hx h.symm]
    rfl

omit [Bus β] in
theorem block?_grown (r : Lowering β) {n : Nat} {b : Block}
    (hb : (t.grown start r).blocks[n]? = some b) :
    (n = t.size ∧ b = t.newBlock start r) ∨ (n < t.size ∧ t.blocks[n]? = some b) := by
  rw [grown, Array.getElem?_push] at hb
  split at hb
  · next hn => exact .inl ⟨hn, (Option.some.inj hb).symm⟩
  · exact .inr ⟨(Array.getElem?_eq_some_iff.1 hb).1, hb⟩

omit [Bus β] in
theorem Coherent.exists_block_grown (hc : t.Coherent link) {r : Lowering β} {addr : UInt32} {n : Nat}
    (hn : (t.grown start r).number? addr = some n) :
    ∃ b, (t.grown start r).blocks[n]? = some b ∧ b.start = addr := by
  rw [number?_grown] at hn
  split at hn
  · next haddr =>
    cases hn
    exact ⟨_, Array.getElem?_push_size, haddr.symm⟩
  · obtain ⟨b, hb, hstart⟩ := (hc.indexed addr n).1 hn
    refine ⟨b, ?_, hstart⟩
    exact (Array.getElem?_push ..).trans ((if_neg (Nat.ne_of_lt (hc.lt_size hn))).trans hb)

omit [Bus β] in
/-- No exit led to the new block before. -/
theorem Coherent.aim?_grown (hc : t.Coherent link) (hnone : t.number? start = none)
    (r : Lowering β) {e : Exit} {aim : Nat} (haim : t.aim? e = some aim) :
    (t.grown start r).aim? e = some aim := by
  rw [aim?] at haim ⊢
  split
  · next hlinked =>
    rw [if_pos hlinked] at haim
    obtain ⟨b, hb, rfl⟩ := Option.map_eq_some_iff.1 haim
    obtain ⟨n, hn, hbn⟩ := Option.bind_eq_some_iff.1 hb
    have hne : e.target ≠ start := fun h => by
      rw [h, hnone] at hn
      cases hn
    have hblock : (t.grown start r).block? n = some b :=
      (Array.getElem?_push ..).trans ((if_neg (Nat.ne_of_lt (hc.lt_size hn))).trans hbn)
    rw [blockAt?, number?_grown, if_neg hne, hn, Option.bind_some, hblock, Option.map_some]
  · next hlinked =>
    rw [if_neg hlinked] at haim
    exact haim

/-- A table with a new block may be linked. -/
theorem linkable_grown (ht : t.Sound) (hc : t.Coherent options.enableBlockLink)
    (hnone : t.number? start = none) (hok : (t.lower bus options regions start).1 = .ok ())
    (hclean : (t.extended (t.lower bus options regions start).2).code.overflowed = false) :
    (t.grown start (t.lower bus options regions start).2).Linkable Stubs.length ∧
      (t.grown start (t.lower bus options regions start).2).code.size %
        Lower.blockAlignment = 0 ∧
      ∀ i < t.code.size, (t.grown start (t.lower bus options regions start).2).code.written[i]? =
        t.code.written[i]? := by
  obtain ⟨hwithin, hapart, hexits⟩ := exits_extended ht hc hok hclean
  have hplace := place_extended ht hok hclean
  generalize (t.lower bus options regions start).2 = r at hwithin hapart hexits hplace ⊢
  obtain ⟨hmarked, hinside, haligned, hkept⟩ := hplace
  have hgrown := size_extended ht.room r
  refine ⟨⟨?_, ?_, fun addr n hn => ?_, ?_, fun n b hb => ?_, fun n b hb e he => ?_⟩, haligned,
    hkept⟩
  -- The new block begins where the last one ended, and ends where the code ends.
  · have hconcat := Tiles.concat (b := t.newBlock start r) hc.tiles
      (by change t.code.size ≤ (t.extended r).entry; omega)
      (by
        change (t.extended r).entry < t.code.size + ((t.extended r).code.size - t.code.size)
        have hbegin : t.code.size % 16 = 0 := hc.aligned
        have hend : (t.extended r).code.size % 16 = 0 := haligned
        omega)
    rw [show (t.grown start r).blocks.toList = t.blocks.toList ++ [t.newBlock start r] from
      Array.toList_push]
    have hend : (t.newBlock start r).checkedEntry + (t.newBlock start r).codeSize =
        (t.grown start r).code.size := Nat.add_sub_cancel' hgrown.1
    rwa [hend] at hconcat
  · exact Nat.lt_of_le_of_lt hgrown.2 ht.capacity_lt
  · exact hc.exists_block_grown hn
  · intro n b hb e he
    rcases block?_grown r hb with ⟨-, rfl⟩ | ⟨-, hb⟩
    · have := hwithin e he
      change t.code.size ≤ e.offset ∧
        e.offset + 5 ≤ t.code.size + ((t.extended r).code.size - t.code.size)
      omega
    · exact hc.wired.within n b hb e he
  · rcases block?_grown r hb with ⟨-, rfl⟩ | ⟨-, hb⟩
    · exact hapart
    · exact hc.wired.apart n b hb
  · rcases block?_grown r hb with ⟨-, rfl⟩ | ⟨-, hb⟩
    -- An exit of the new block was lowered to a jump to its stub or to a block that was there.
    · obtain ⟨-, aim, haim, hjump⟩ := hexits e he
      exact ⟨aim, hc.aim?_grown hnone r haim, hjump⟩
    · obtain ⟨aim, haim, hjump⟩ := hc.wired.leads n b hb e he
      refine ⟨aim, hc.aim?_grown hnone r haim, hjump.of_eq fun i _ hi => hkept i ?_⟩
      have hin := hc.wired.within n b hb e he
      have hmem := hc.tiles.mem (List.mem_of_getElem? (Array.getElem?_toList ▸ hb))
      omega

/-! ## Compiling -/

/-- The marks of a table with a new block go by the index before. -/
theorem linked_grown (ht : t.Sound) (hc : t.Coherent options.enableBlockLink)
    (hok : (t.lower bus options regions start).1 = .ok ())
    (hclean : (t.extended (t.lower bus options regions start).2).code.overflowed = false)
    {n : Nat} {b : Block}
    (hb : (t.grown start (t.lower bus options regions start).2).blocks[n]? = some b) {e : Exit}
    (he : e ∈ b.exits) :
    e.linked = (options.enableBlockLink && (t.number? e.target).isSome) := by
  rcases block?_grown _ hb with ⟨-, rfl⟩ | ⟨-, hb⟩
  · exact ((exits_extended ht hc hok hclean).2.2 e he).1
  · exact hc.linked n b hb e he

/-- If whatever waits for a block that is there gets linked, then marks tell which blocks are
there. -/
theorem linked_of_links {p : Nat → UInt32 → Prop} (hu : u.Wired) (hlinks : Links p t u)
    (hp : ∀ n x, t.Awaits n x → (t.number? x).isSome → p n x) {n : Nat} {b : Block}
    (hb : u.blocks[n]? = some b) {e : Exit} (he : e ∈ b.exits) :
    e.linked = (u.number? e.target).isSome := by
  cases hlinked : e.linked with
  | true =>
    obtain ⟨aim, haim, -⟩ := hu.leads n b hb e he
    rw [aim?, if_pos hlinked] at haim
    obtain ⟨b', hb', -⟩ := Option.map_eq_some_iff.1 haim
    obtain ⟨m, hm, -⟩ := Option.bind_eq_some_iff.1 hb'
    rw [hm]
    rfl
  | false =>
    have hawaits : u.Awaits n e.target := ⟨b, hb, e, he, by simp [Exit.awaits, hlinked]⟩
    obtain ⟨hawaits, hnot⟩ := (hlinks.awaits n e.target).1 hawaits
    rw [hlinks.number?_eq]
    cases hnumber : (t.number? e.target).isSome with
    | true => exact absurd (hp n e.target hawaits hnumber) hnot
    | false => rfl

omit [Bus β] in
/-- A block is found by its start, be it the new one or one of the old ones. -/
theorem Coherent.number?_start_of_links (hc : t.Coherent link) (hnone : t.number? start = none)
    {r : Lowering β} {p : Nat → UInt32 → Prop} (hlinks : Links p (t.grown start r) u) {n : Nat}
    {b : Block} (hb : u.blocks[n]? = some b) : u.number? b.start = some n := by
  obtain ⟨b', hb', hstart⟩ := hlinks.symm.exists_block hb
  rw [hlinks.number?_eq, ← show b'.start = b.start from congrArg (·.start) hstart, number?_grown]
  rcases block?_grown r hb' with ⟨rfl, rfl⟩ | ⟨-, hb'⟩
  · exact if_pos rfl
  · have hindex := (hc.indexed b'.start n).2 ⟨b', hb', rfl⟩
    rw [if_neg, hindex]
    intro heq
    rw [heq, hnone] at hindex
    cases hindex

omit [Bus β] in
/-- Who waits for a block that is there is the new block, or an older one that is noted to wait for
the new one. -/
theorem Coherent.noted_of_awaits (hc : t.Coherent link) (hlink : link = true) {r : Lowering β}
    (hmarks : ∀ (n : Nat) (b : Block), (t.grown start r).blocks[n]? = some b → ∀ e ∈ b.exits,
      e.linked = (link && (t.number? e.target).isSome)) {m : Nat} {x : UInt32}
    (hawaits : (t.grown start r).Awaits m x) (hsome : ((t.grown start r).number? x).isSome) :
    (m = t.size ∧ ∃ e ∈ (t.extended r).exits, e.target = x) ∨
      (x = start ∧ m ∈ t.linksTo.getD x []) := by
  obtain ⟨b, hb, e, he, hwaits⟩ := hawaits
  obtain ⟨htarget, hunmarked⟩ : e.target = x ∧ e.linked = false := by
    simpa [Exit.awaits] using hwaits
  have hmark := hmarks m b hb e he
  rw [hunmarked, hlink, htarget, Bool.true_and] at hmark
  rcases block?_grown r hb with ⟨rfl, rfl⟩ | ⟨-, hb⟩
  · exact .inl ⟨rfl, e, he, htarget⟩
  · rw [number?_grown] at hsome
    split at hsome
    · next hx => exact .inr ⟨hx, htarget ▸ hc.noted hlink m b hb e he⟩
    -- An exit that waits is not marked, so no block was there before.
    · rw [hsome] at hmark
      cases hmark

/-- A block that was lowered and for which there was room is published without a breach. -/
theorem Coherent.finalize (ht : t.Sound) (hc : t.Coherent options.enableBlockLink)
    (hnone : t.number? start = none) (hfull : t.isFull = false)
    (hok : (t.lower bus options regions start).1 = .ok ())
    (hclean : (t.extended (t.lower bus options regions start).2).code.overflowed = false) :
    ∃ u events, (t.assembled start (t.lower bus options regions start).2).finalize t.size
        options.enableBlockLink = .ok (u, events) ∧ u.Coherent options.enableBlockLink ∧
      ∃ p, Links p (t.grown start (t.lower bus options regions start).2) u := by
  obtain ⟨hlinkable, haligned, hkept⟩ := linkable_grown ht hc hnone hok hclean
  have hmarks (n : Nat) (b : Block) (hb : _ = some b) (e : Exit) (he : e ∈ b.exits) :=
    linked_grown (n := n) ht hc hok hclean hb he
  generalize (t.lower bus options regions start).2 = r at hlinkable haligned hkept hmarks ⊢
  obtain ⟨hb, henlisted⟩ := enlisted_assembled ht start r
  have hsize : (t.assembled start r).blocks.size = t.size + 1 := Array.size_push _
  have hknown : ∀ x, ∀ m ∈ (t.assembled start r).linksTo.getD x [],
      m < (t.assembled start r).blocks.size := fun x m hm => by
    have : m < t.size := hc.known x m hm
    omega
  rw [← henlisted] at hlinkable
  -- Linking changes exits and the bytes of their jumps, and nothing that the table is indexed by.
  have hfinalize := finalize_spec options.enableBlockLink hb hlinkable hknown
  rw [henlisted] at hfinalize hlinkable
  obtain ⟨u, events, heq, hu, hlinks, hmem⟩ := hfinalize
  have husize : u.blocks.size = t.size + 1 := hlinks.size_eq.trans (Array.size_push _)
  have hnewBlock : (t.grown start r).blocks[t.size]? = some (t.newBlock start r) :=
    Array.getElem?_push_size
  refine ⟨u, events, heq, ⟨fun addr n => ⟨hu.indexed addr n, ?_⟩, ?_, hu.tiles, ?_, fun i hi => ?_,
    hu.wired, fun n b hn e he => ?_, fun hlink n b hn e he => ?_, fun x m hm => ?_⟩,
    _, hlinks⟩
  · rintro ⟨b, hn, rfl⟩
    exact hc.number?_start_of_links hnone hlinks hn
  · rw [husize, hlinks.maxBlocks]
    have hroom : ¬ t.maxBlocks ≤ t.size := by simpa [isFull] using hfull
    change t.size + 1 ≤ t.maxBlocks
    omega
  · rw [hlinks.code.size]
    exact haligned
  -- The stubs lie in front of every block, and links are written in blocks only.
  · rw [hlinks.kept i fun n b hn e he => ?_, hkept i (Nat.lt_of_lt_of_le hi ht.stubs)]
    · exact hc.stubs i hi
    · have hin := hlinkable.wired.within n b hn e he
      have hfrom := hlinkable.tiles.mem (List.mem_of_getElem? (Array.getElem?_toList ▸ hn))
      omega
  · cases hlink : options.enableBlockLink with
    | false =>
      -- Nothing is linked, and no exit was marked before.
      rw [hlink, finalize_eq hb, henlisted] at heq
      cases heq
      rw [hmarks n b hn e he, hlink]
      rfl
    | true =>
      rw [Bool.true_and]
      refine linked_of_links hu.wired hlinks (fun m x hawaits hsome => ⟨hlink, ?_⟩) hn he
      rcases hc.noted_of_awaits hlink hmarks hawaits hsome with ⟨hm, hexit⟩ | ⟨hx, hnoted⟩
      · exact .inl ⟨hm, hexit, hsome⟩
      · exact .inr ⟨hx, .inl hnoted⟩
  · obtain ⟨b', hn', -, e', he', -, htarget⟩ := hlinks.symm.exists_exit hn he
    rw [hmem, ← htarget]
    rcases block?_grown r hn' with ⟨rfl, rfl⟩ | ⟨-, hn'⟩
    · exact .inr ⟨hlink, rfl, e', he', rfl⟩
    · exact .inl (hc.noted hlink n b' hn' e' he')
  · rw [husize]
    rcases (hmem m x).1 hm with hm | ⟨-, rfl, -⟩
    · exact Nat.lt_succ_of_lt (hc.known x m hm)
    · exact Nat.lt_succ_self _

/-- Compiling a block keeps a table coherent. -/
theorem Coherent.compile (ht : t.Sound) (hc : t.Coherent options.enableBlockLink)
    (hnone : t.number? start = none) {n : Nat}
    (h : (t.compile bus options regions start).result = .ok n) :
    (t.compile bus options regions start).table.Coherent options.enableBlockLink := by
  obtain ⟨hfull, hok, hclean, -, ⟨events, hfinalize⟩, -⟩ := compile_eq_ok h
  obtain ⟨u, events', heq, hu, -⟩ := hc.finalize ht hnone hfull hok hclean
  rw [heq] at hfinalize
  cases hfinalize
  exact hu

end BlockTable

end Recompiler
