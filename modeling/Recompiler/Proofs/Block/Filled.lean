import Recompiler.Proofs.Block.Coherent

/-!
# Blocks and their code

Between the beginning and the end of each block lies the code that its guest instructions were lowered
to. Linking changes where the exits lead, and no other byte of it.

* `Laid.exchange`: code stays laid out while its exits are sent elsewhere.
* `Block.Filled`: the code of a block lies where the block says.
* `BlockTable.Holds`: a block in a table, and what it was lowered from.
* `BlockTable.holds_compile`: compiling a block keeps the others.
-/

namespace Recompiler

/-- Where in the guest an exit leads, and where its jump is. -/
def Exit.place (e : Exit) : UInt32 × Nat :=
  (e.target, e.offset)

namespace Layout

/-- Where the exits are does not depend on where the entry is marked. -/
theorem places_exits (entry entry' offset : Nat) (items : List Item) :
    (exits entry offset items).map (·.1.place) = (exits entry' offset items).map (·.1.place) := by
  induction items generalizing entry entry' offset with
  | nil => rfl
  | cons item rest ih =>
    cases item with
    | leave target destination linked =>
      simp only [exits, List.map_cons]
      rw [ih entry entry']
    | entry => rfl
    | _ => exact ih entry entry' _

/-- An exit behind other code. -/
theorem mem_places_append (entry offset : Nat) (items rest : List Item) (target : UInt32)
    (destination : Destination) (linked : Bool) :
    (target, stop offset items) ∈
      (exits entry offset (items ++ .leave target destination linked :: rest)).map (·.1.place) := by
  induction items generalizing entry offset with
  | nil => exact List.mem_cons_self
  | cons item items ih =>
    cases item with
    | leave => exact List.mem_cons_of_mem _ (ih _ _)
    | _ => exact ih _ _

end Layout

/-! ## Sending exits elsewhere -/

/-- The bytes of an item other than an exit are enough to place it. -/
theorem Item.Placed.of_bytes {code code' : Array UInt8} {offset : Nat} {item : Item}
    {rest : List Item} (h : item.Placed code offset rest)
    (hitem : ∀ target destination linked, item ≠ .leave target destination linked)
    (hbytes : ∀ bytes, bytes.length = item.size offset → HasBytes code offset bytes →
      HasBytes code' offset bytes) : item.Placed code' offset rest := by
  cases item with
  | instruction i => exact hbytes _ rfl h
  | jump label => exact fun target htarget => hbytes _ rfl (h target htarget)
  | jumpIf c label => exact fun target htarget => hbytes _ rfl (h target htarget)
  | jumpTo target => exact hbytes _ rfl h
  | jumpIfTo c target => exact hbytes _ rfl h
  | leave target destination linked => exact absurd rfl (hitem target destination linked)
  | bind | entry | align => trivial

/-- Code stays laid out where the bytes besides its exits stay and the exits stay jumps. -/
theorem Laid.exchange {code code' : Array UInt8} (entry : Nat) {offset : Nat} {items : List Item}
    (h : Laid code offset items)
    (hkept : ∀ i, offset ≤ i → i < Layout.stop offset items →
      (∀ e ∈ Layout.exits entry offset items, i ≤ e.1.offset ∨ e.1.offset + 5 ≤ i) →
        code'[i]? = code[i]?)
    (hjumps : ∀ e ∈ Layout.exits entry offset items,
      ∃ distance, HasBytes code' e.1.offset (HostInstruction.jump distance).encode) :
    Laid code' offset items := by
  induction items generalizing entry offset with
  | nil => trivial
  | cons item rest ih =>
    obtain ⟨hplaced, hlaid⟩ := h
    have hle := Layout.le_stop (offset + item.size offset) rest
    change ∀ i, _ → i < Layout.stop (offset + item.size offset) rest → _ at hkept
    -- An item that is no exit keeps its bytes, and so does the rest.
    have hplain (entry' : Nat)
        (hitem : ∀ target destination linked, item ≠ .leave target destination linked)
        (hexits : Layout.exits entry offset (item :: rest) =
          Layout.exits entry' (offset + item.size offset) rest) :
        Laid code' offset (item :: rest) := by
      rw [hexits] at hkept hjumps
      refine ⟨hplaced.of_bytes hitem fun bytes hlength hbytes => ?_,
        ih entry' hlaid (fun i hlow => hkept i (by omega)) hjumps⟩
      refine hbytes.of_eq fun i hlow hhigh => hkept i hlow (by omega) fun e he => .inl ?_
      have hwithin := Layout.exits_within he
      omega
    cases item with
    | leave target destination linked =>
      refine ⟨hjumps _ List.mem_cons_self, ih entry hlaid (fun i hlow hhigh hspared => ?_)
        fun e he => hjumps e (List.mem_cons_of_mem _ he)⟩
      change offset + 5 ≤ i at hlow
      refine hkept i (by omega) hhigh fun e he => ?_
      rcases List.mem_cons.1 he with rfl | he
      · exact .inr hlow
      · exact hspared e he
    | entry => exact hplain offset (fun _ _ _ => nofun) rfl
    | _ => exact hplain entry (fun _ _ _ => nofun) rfl

/-! ## The code of a block -/

/-- Where the exits of a block lead and are. -/
def Block.places (b : Block) : List (UInt32 × Nat) :=
  b.exits.toList.map Exit.place

theorem Block.places_unlinked (b : Block) : b.unlinked.places = b.places := by
  simp only [places, unlinked, Array.toList_map, List.map_map]
  rfl

/-- The code of a block lies where the block says, and its exits are those of the code. -/
structure Block.Filled (code : Arena) (b : Block) (items : List Item) : Prop where
  laid : Laid code.written b.checkedEntry items
  stop : Layout.stop b.checkedEntry items = b.checkedEntry + b.codeSize
  normal : b.normalEntry = b.checkedEntry + 30
  places : b.places = (Layout.exits b.checkedEntry b.checkedEntry items).map (·.1.place)

namespace BlockTable

variable {t u : BlockTable} {offset : Nat} {b b' : Block} {items : List Item}

/-- Within a block only its own exits matter. -/
theorem Linkable.spares (ht : t.Linkable offset) {n : Nat} (hb : t.blocks[n]? = some b) {i : Nat}
    (hlow : b.checkedEntry ≤ i) (hhigh : i < b.checkedEntry + b.codeSize)
    (hown : ∀ e ∈ b.exits, i ≤ e.offset ∨ e.offset + 5 ≤ i) : t.Spares i := by
  intro m c hc e he
  have hwithin := ht.wired.within m c hc e he
  have hlist (k : Nat) (d : Block) (hd : t.blocks[k]? = some d) : t.blocks.toList[k]? = some d :=
    Array.getElem?_toList ▸ hd
  rcases Nat.lt_trichotomy n m with hlt | rfl | hlt
  · have hapart := ht.tiles.apart hlt (hlist n b hb) (hlist m c hc)
    omega
  · cases hb.symm.trans hc
    exact hown e he
  · have hapart := ht.tiles.apart hlt (hlist m c hc) (hlist n b hb)
    omega

/-- Linking keeps the code of the blocks, wherever the bytes were before. -/
theorem Linkable.filled (ht : t.Linkable offset) {p : Nat → UInt32 → Prop} (hlinks : Links p t u)
    (hu : u.Wired) {n : Nat} (hb : t.blocks[n]? = some b) (hb' : u.blocks[n]? = some b')
    (heq : b'.unlinked = b.unlinked) {code : Arena}
    (hsame : ∀ i, b.checkedEntry ≤ i → i < b.checkedEntry + b.codeSize →
      t.code.written[i]? = code.written[i]?)
    (h : b.Filled code items) : b'.Filled u.code items := by
  have hentry : b'.checkedEntry = b.checkedEntry := congrArg (·.checkedEntry) heq
  have hsize : b'.codeSize = b.codeSize := congrArg (·.codeSize) heq
  have hnormal : b'.normalEntry = b.normalEntry := congrArg (·.normalEntry) heq
  have hplaces : b'.places = b.places := by
    rw [← b'.places_unlinked, heq, b.places_unlinked]
  -- The exits of the code are those that the block lists.
  have hlisted {c : Block} (hc : c.places = b.places) {e : Exit × Nat}
      (he : e ∈ Layout.exits b.checkedEntry b.checkedEntry items) :
      ∃ e' ∈ c.exits, e'.offset = e.1.offset := by
    have hmem := List.mem_map_of_mem (f := (·.1.place)) he
    rw [← h.places, ← hc, Block.places, List.mem_map] at hmem
    obtain ⟨e', he', hplace⟩ := hmem
    exact ⟨e', Array.mem_toList_iff.1 he', congrArg Prod.snd hplace⟩
  refine ⟨?_, ?_, ?_, ?_⟩
  · rw [hentry]
    -- Bytes outside of the exits are spared by linking; those of an exit are a jump before and
    -- after.
    refine h.laid.exchange b.checkedEntry (fun i hlow hhigh hspared => ?_)
      fun e he => ?_
    · rw [h.stop] at hhigh
      rw [hlinks.kept i (ht.spares hb hlow hhigh fun e he => ?_), hsame i hlow hhigh]
      have hmem : e.place ∈ b.places := List.mem_map_of_mem (Array.mem_toList_iff.2 he)
      rw [h.places, List.mem_map] at hmem
      obtain ⟨e', he', hplace⟩ := hmem
      have hoffset : e'.1.offset = e.offset := congrArg Prod.snd hplace
      rw [← hoffset]
      exact hspared e' he'
    · obtain ⟨e', he', hoffset⟩ := hlisted hplaces he
      obtain ⟨aim, -, hjump⟩ := hu.leads n b' hb' e' he'
      rw [← hoffset]
      exact ⟨_, hjump⟩
  · rw [hentry, hsize, h.stop]
  · rw [hnormal, hentry, h.normal]
  · rw [hplaces, hentry, h.places]

/-! ## The blocks of a table -/

variable {β : Type} [Bus β] {bus : β} {o : Options} {regions : List FastRegion} {start : UInt32}

/-- The block lies in the table, and it was lowered while the guest was `bus`. -/
def Holds (o : Options) (regions : List FastRegion) (t : BlockTable) (bus : β) (b : Block) : Prop :=
  ∃ entryAt u, (Lower.block b.start).exec ⟨o, regions, Stubs.standard, entryAt⟩
      (.initial bus b.start) = (.ok (), u) ∧
    b.Filled t.code u.code.toList ∧ b.instructions = u.instructions

/-- A new block is filled before it is linked. -/
theorem filled_newBlock (ht : t.Sound) (hok : (t.lower bus o regions start).1 = .ok ())
    (hclean : (t.extended (t.lower bus o regions start).2).code.overflowed = false) :
    (t.newBlock start (t.lower bus o regions start).2).Filled
      (t.grown start (t.lower bus o regions start).2).code
      (t.lower bus o regions start).2.code.toList := by
  obtain ⟨more, hcode, hmore, hlaid⟩ := laidOut_extended ht hok hclean
  rw [hcode]
  generalize (t.lower bus o regions start).2 = r at hlaid ⊢
  have hgrown := size_extended ht.room r
  have hsize := size_start_reserved ht.room
  have hstop := hlaid.size
  have hentry := hlaid.entry
  have hcodeLaid := hlaid.laid
  have hexits := hlaid.exits
  rw [hsize] at hstop hentry hcodeLaid hexits
  refine ⟨hcodeLaid, ?_, ?_, ?_⟩
  · rw [newBlock, ← hstop]
    exact (Nat.add_sub_cancel' hgrown.1).symm
  · have hstart : (Assembly.start t.reserved).entry = t.code.size := hsize
    change (t.extended r).entry = t.code.size + 30
    rw [hentry, hstart, List.append_assoc, Layout.entry_entryItems, Layout.entry_eq]
    intro hmem
    rcases List.mem_append.1 hmem with hmem | hmem
    · rcases hmore _ hmem with hplain | ⟨x, hx⟩
      · cases hplain
      · cases hx
    · simp at hmem
  · change (t.extended r).exits.toList.map Exit.place = _
    rw [hexits, Array.toList_append, List.map_append, Layout.places_exits _ t.code.size]
    exact (List.map_map ..).trans (Layout.places_exits _ _ _ _)

/-- Compiling a block puts it behind the others, which keep their code and all but the marks of their
exits. -/
theorem holds_compile (ht : t.Sound) (hstubs : t.stubs = Stubs.standard)
    (hc : t.Coherent o.enableBlockLink) (hnone : t.number? start = none) {n : Nat}
    (hresult : (t.compile bus o regions start).result = .ok n) :
    let u := (t.compile bus o regions start).table
    u.size = t.size + 1 ∧
      (∃ b, u.blocks[t.size]? = some b ∧ b.start = start ∧ u.Holds o regions bus b) ∧
      ∀ (m : Nat) (b : Block), t.blocks[m]? = some b → ∃ b', u.blocks[m]? = some b' ∧
        b'.unlinked = b.unlinked ∧ ∀ (o' : Options) (regions' : List FastRegion) (bus' : β),
          t.Holds o' regions' bus' b → u.Holds o' regions' bus' b' := by
  intro u
  obtain ⟨hfull, hok, hclean, -, ⟨events, hfinalize⟩, -⟩ := compile_eq_ok hresult
  obtain ⟨u', events', heq, hu, p, hlinks⟩ := hc.finalize ht hnone hfull hok hclean
  rw [hfinalize] at heq
  obtain rfl : u' = u := by
    cases heq
    rfl
  obtain ⟨hlinkable, -, hkept⟩ := linkable_grown ht hc hnone hok hclean
  have hnew := filled_newBlock ht hok hclean
  have hlower : (t.lower bus o regions start) =
      (.ok (), (t.lower bus o regions start).2) := Prod.ext hok rfl
  -- Linking touches nothing but the destinations of exits, so old code and new code stay filled.
  refine ⟨?_, ?_, fun m b hb => ?_⟩
  · exact (size_blocks_of_links hlinks).trans (Array.size_push _)
  · have hb : (t.grown start (t.lower bus o regions start).2).blocks[t.size]? =
        some (t.newBlock start (t.lower bus o regions start).2) := Array.getElem?_push_size
    obtain ⟨b', hb', hunlinked⟩ := hlinks.exists_block hb
    have hstart : b'.start = start := congrArg (·.start) hunlinked
    have hcount : b'.instructions = (t.lower bus o regions start).2.instructions :=
      congrArg (·.instructions) hunlinked
    refine ⟨b', hb', hstart, (t.opened start).entryAt t.size, _, ?_,
      hlinkable.filled hlinks hu.wired hb hb' hunlinked (fun _ _ _ => rfl) hnew, hcount⟩
    rw [hstart, ← hstubs]
    exact hlower
  · have hlt : m < t.size := (Array.getElem?_eq_some_iff.1 hb).1
    have hold : (t.grown start (t.lower bus o regions start).2).blocks[m]? = some b :=
      (Array.getElem?_push ..).trans ((if_neg (Nat.ne_of_lt hlt)).trans hb)
    obtain ⟨b', hb', hunlinked⟩ := hlinks.exists_block hold
    refine ⟨b', hb', hunlinked, fun o' regions' bus' hholds => ?_⟩
    obtain ⟨entryAt, v, hexec, hfilled, hcount⟩ := hholds
    have hstart : b'.start = b.start := congrArg (·.start) hunlinked
    have hcount' : b'.instructions = b.instructions := congrArg (·.instructions) hunlinked
    refine ⟨entryAt, v, hstart.symm ▸ hexec, hlinkable.filled hlinks hu.wired hold hb' hunlinked
      (fun i _ hi => hkept i ?_) hfilled, hcount'.trans hcount⟩
    have hmem := hc.tiles.mem (List.mem_of_getElem? (Array.getElem?_toList ▸ hb))
    omega

/-- Every block of the table was lowered from a guest that is `known` to belong to its start. -/
def Sourced (o : Options) (regions : List FastRegion) (known : UInt32 → β → Prop)
    (t : BlockTable) : Prop :=
  ∀ (n : Nat) (b : Block), t.blocks[n]? = some b → ∃ bus, known b.start bus ∧ t.Holds o regions bus b

/-- A table without blocks is sourced. -/
theorem sourced_of_isEmpty {known : UInt32 → β → Prop} (h : t.blocks = #[]) :
    t.Sourced o regions known := by
  intro n b hb
  rw [h] at hb
  simp at hb

/-- Compiling a block keeps a table sourced. -/
theorem Sourced.compile {known : UInt32 → β → Prop} (h : t.Sourced o regions known)
    (ht : t.Sound) (hstubs : t.stubs = Stubs.standard) (hc : t.Coherent o.enableBlockLink)
    (hnone : t.number? start = none) (hknown : known start bus) {n : Nat}
    (hresult : (t.compile bus o regions start).result = .ok n) :
    (t.compile bus o regions start).table.Sourced o regions known := by
  obtain ⟨hsize, ⟨b, hb, hstart, hholds⟩, hold⟩ := holds_compile ht hstubs hc hnone hresult
  intro m c hm
  have hlt : m < t.size + 1 := hsize ▸ (Array.getElem?_eq_some_iff.1 hm).1
  rcases Nat.lt_succ_iff_lt_or_eq.1 hlt with hlt | rfl
  · obtain ⟨b', hb', hunlinked, hkeeps⟩ := hold m _ (Array.getElem?_eq_getElem hlt)
    cases hm.symm.trans hb'
    obtain ⟨bus', hknown', hholds'⟩ := h m _ (Array.getElem?_eq_getElem hlt)
    have hstart' : c.start = _ := congrArg (·.start) hunlinked
    exact ⟨bus', hstart' ▸ hknown', hkeeps o regions bus' hholds'⟩
  · cases hm.symm.trans hb
    exact ⟨bus, hstart.symm ▸ hknown, hholds⟩

end BlockTable

end Recompiler
