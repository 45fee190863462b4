import Recompiler.Proofs.Block.Links

/-!
# Where exits lead

While blocks are linked, the jump of each exit leads where its mark says, and more and more exits
are marked.

* `BlockTable.Tiles`: blocks that stand one behind the other.
* `BlockTable.Wired`: marks and jumps agree.
* `BlockTable.Awaits`: a block has an exit that is not linked.
* `BlockTable.Links`: one table is another after some exits were linked.
* `BlockTable.linkExits_spec`, `BlockTable.linkOut_spec`, `BlockTable.linkIn_spec`: which ones.
-/

namespace Recompiler

namespace BlockTable

/-! ## Blocks in a row -/

/-- The blocks stand one behind the other from `offset` to `stop`, each with its entry inside. -/
def Tiles : (offset : Nat) → List Block → (stop : Nat) → Prop
  | offset, [], stop => offset = stop
  | offset, b :: rest, stop =>
    b.checkedEntry = offset ∧ offset ≤ b.normalEntry ∧ b.normalEntry < offset + b.codeSize ∧
      Tiles (offset + b.codeSize) rest stop

namespace Tiles

variable {offset stop : Nat} {blocks blocks' : List Block} {b c : Block}

theorem le (h : Tiles offset blocks stop) : offset ≤ stop := by
  induction blocks generalizing offset with
  | nil => exact Nat.le_of_eq h
  | cons b rest ih =>
    have := ih h.2.2.2
    omega

/-- A block lies within the row, and its entry within the block. -/
theorem mem (h : Tiles offset blocks stop) (hb : b ∈ blocks) :
    offset ≤ b.checkedEntry ∧ b.checkedEntry ≤ b.normalEntry ∧
      b.normalEntry < b.checkedEntry + b.codeSize ∧ b.checkedEntry + b.codeSize ≤ stop := by
  induction blocks generalizing offset with
  | nil => cases hb
  | cons b' rest ih =>
    obtain ⟨hentry, hnormal, hinside, hrest⟩ := h
    rcases List.mem_cons.1 hb with rfl | hb
    · have := hrest.le
      omega
    · have := ih hrest hb
      omega

/-- Blocks do not overlap. -/
theorem apart {m n : Nat} (h : Tiles offset blocks stop) (hlt : m < n) (hb : blocks[m]? = some b)
    (hc : blocks[n]? = some c) : b.checkedEntry + b.codeSize ≤ c.checkedEntry := by
  induction blocks generalizing offset m n with
  | nil => cases hb
  | cons b' rest ih =>
    obtain ⟨hentry, -, -, hrest⟩ := h
    obtain ⟨n, rfl⟩ : ∃ n', n = n' + 1 := ⟨n - 1, by omega⟩
    rw [List.getElem?_cons_succ] at hc
    cases m with
    | zero =>
      obtain rfl : b' = b := by simpa using hb
      have := (hrest.mem (List.mem_of_getElem? hc)).1
      omega
    | succ m =>
      rw [List.getElem?_cons_succ] at hb
      exact ih hrest (by omega) hb hc

/-- Another block may be put behind the last one. -/
theorem concat (h : Tiles offset blocks b.checkedEntry) (hnormal : b.checkedEntry ≤ b.normalEntry)
    (hinside : b.normalEntry < b.checkedEntry + b.codeSize) :
    Tiles offset (blocks ++ [b]) (b.checkedEntry + b.codeSize) := by
  induction blocks generalizing offset with
  | nil =>
    have hoffset : offset = b.checkedEntry := h
    exact ⟨hoffset.symm, by omega, by omega, by rw [hoffset]; rfl⟩
  | cons b' rest ih => exact ⟨h.1, h.2.1, h.2.2.1, ih h.2.2.2⟩

/-- Marks do not matter. -/
theorem congr (h : Tiles offset blocks stop)
    (heq : blocks'.map Block.unlinked = blocks.map Block.unlinked) :
    Tiles offset blocks' stop := by
  induction blocks generalizing offset blocks' with
  | nil =>
    obtain rfl := List.map_eq_nil_iff.1 heq
    exact h
  | cons b rest ih =>
    obtain ⟨b', rest', rfl, hb, hrest⟩ := List.map_eq_cons_iff.1 heq
    obtain ⟨hentry, hnormal, hinside, htiles⟩ := h
    have hchecked : b'.checkedEntry = b.checkedEntry := congrArg (·.checkedEntry) hb
    have hentry' : b'.normalEntry = b.normalEntry := congrArg (·.normalEntry) hb
    have hsize : b'.codeSize = b.codeSize := congrArg (·.codeSize) hb
    refine ⟨hchecked.trans hentry, ?_, ?_, ?_⟩
    · rwa [hentry']
    · rwa [hentry', hsize]
    · rw [hsize]
      exact ih htiles hrest

end Tiles

/-! ## Marks and jumps -/

variable {t u v : BlockTable} {offset : Nat}

/-- Where an exit is to lead: to the block at its target if it is linked, and to the dispatcher if
not. -/
def aim? (t : BlockTable) (e : Exit) : Option Nat :=
  if e.linked then (t.blockAt? e.target).map (·.normalEntry) else some t.stubs.dispatcher

/-- Each exit is a jump inside its block that leads where it is to lead. -/
structure Wired (t : BlockTable) : Prop where
  within : ∀ (n : Nat) (b : Block), t.blocks[n]? = some b → ∀ e ∈ b.exits,
    b.checkedEntry ≤ e.offset ∧ e.offset + 5 ≤ b.checkedEntry + b.codeSize
  apart : ∀ (n : Nat) (b : Block), t.blocks[n]? = some b →
    b.exits.toList.Pairwise fun e e' => e.offset + 5 ≤ e'.offset
  leads : ∀ (n : Nat) (b : Block), t.blocks[n]? = some b → ∀ e ∈ b.exits,
    ∃ aim, t.aim? e = some aim ∧ t.code.Leads e.offset aim

/-- What holds while a table is linked whose blocks begin at `offset`. -/
structure Linkable (offset : Nat) (t : BlockTable) : Prop where
  tiles : Tiles offset t.blocks.toList t.code.size
  small : t.code.size < UInt64.size
  indexed : ∀ addr n, t.number? addr = some n → ∃ b, t.blocks[n]? = some b ∧ b.start = addr
  wired : t.Wired

/-- Block `n` has an exit to `target` that is not linked. -/
def Awaits (t : BlockTable) (n : Nat) (target : UInt32) : Prop :=
  ∃ b, t.blocks[n]? = some b ∧ ∃ e ∈ b.exits, e.awaits target = true

/-- No exit of the table covers the byte at `i`. -/
def Spares (t : BlockTable) (i : Nat) : Prop :=
  ∀ (n : Nat) (b : Block), t.blocks[n]? = some b → ∀ e ∈ b.exits, i ≤ e.offset ∨ e.offset + 5 ≤ i

/-- `u` is `t` after the exits of blocks `n` to `target` with `p n target` were linked. -/
structure Links (p : Nat → UInt32 → Prop) (t u : BlockTable) : Prop extends Relinks t u where
  kept : ∀ i, t.Spares i → u.code.written[i]? = t.code.written[i]?
  awaits : ∀ n target, u.Awaits n target ↔ t.Awaits n target ∧ ¬ p n target

theorem Relinks.aim?_eq (h : t.Relinks u) (e : Exit) : u.aim? e = t.aim? e := by
  have hblock : (u.blockAt? e.target).map (·.normalEntry) =
      (t.blockAt? e.target).map (·.normalEntry) := by
    rw [blockAt?, blockAt?, h.number?_eq]
    cases t.number? e.target with
    | none => rfl
    | some n =>
      have hn := congrArg (Option.map (·.normalEntry)) (h.block?_eq n)
      rw [Option.map_map, Option.map_map] at hn
      exact hn
  rw [aim?, aim?, hblock, h.stubs]

/-- The exits of corresponding blocks are the same up to their marks. -/
theorem Relinks.exists_exit (h : t.Relinks u) {n : Nat} {b : Block} {e : Exit}
    (hb : t.blocks[n]? = some b) (he : e ∈ b.exits) :
    ∃ b', u.blocks[n]? = some b' ∧ b'.unlinked = b.unlinked ∧
      ∃ e' ∈ b'.exits, e'.offset = e.offset ∧ e'.target = e.target := by
  obtain ⟨b', hb', heq⟩ := h.exists_block hb
  refine ⟨b', hb', heq, ?_⟩
  have hexits : b'.exits.map (fun e => { e with linked := false }) =
      b.exits.map fun e => { e with linked := false } := congrArg (·.exits) heq
  have hmem : { e with linked := false } ∈ b'.exits.map fun e : Exit => { e with linked := false } := by
    rw [hexits]
    exact Array.mem_map.2 ⟨e, he, rfl⟩
  obtain ⟨e', he', heq'⟩ := Array.mem_map.1 hmem
  exact ⟨e', he', congrArg (·.offset) heq', congrArg (·.target) heq'⟩

theorem Relinks.symm (h : t.Relinks u) : u.Relinks t := by
  refine ⟨⟨?_, h.code.size.symm⟩, h.blocks.symm, h.byStart.symm, h.stubs.symm, h.maxBlocks.symm⟩
  rw [h.code.others]

theorem Relinks.spares (h : t.Relinks u) {i : Nat} (hi : t.Spares i) : u.Spares i := by
  intro n b hb e he
  obtain ⟨b', hb', -, e', he', hoffset, -⟩ := h.symm.exists_exit hb he
  rw [← hoffset]
  exact hi n b' hb' e' he'

/-- The blocks of a table that differs in links only stand in the same places. -/
theorem Linkable.relinks (ht : t.Linkable offset) (h : t.Relinks u) (hwired : u.Wired) :
    u.Linkable offset where
  tiles := by
    have heq := congrArg Array.toList h.blocks
    rw [Array.toList_map, Array.toList_map] at heq
    rw [h.code.size]
    exact ht.tiles.congr heq
  small := by
    rw [h.code.size]
    exact ht.small
  indexed addr n hn := by
    obtain ⟨b, hb, hstart⟩ := ht.indexed addr n ((h.number?_eq addr).symm.trans hn)
    obtain ⟨b', hb', heq⟩ := h.exists_block hb
    exact ⟨b', hb', (congrArg (·.start) heq).trans hstart⟩
  wired := hwired

namespace Links

variable {p q : Nat → UInt32 → Prop}

theorem refl (t : BlockTable) : Links (fun _ _ => False) t t :=
  ⟨.refl t, fun _ _ => rfl, fun _ _ => by simp⟩

theorem trans (h : Links p t u) (h' : Links q u v) :
    Links (fun n target => p n target ∨ q n target) t v where
  toRelinks := h.toRelinks.trans h'.toRelinks
  kept i hi := (h'.kept i (h.spares hi)).trans (h.kept i hi)
  awaits n target := by
    rw [h'.awaits, h.awaits, not_or, and_assoc]

theorem of_iff (h : Links p t u) (hiff : ∀ n target, p n target ↔ q n target) : Links q t u :=
  ⟨h.toRelinks, h.kept, fun n target => by rw [h.awaits, hiff]⟩

end Links

/-- Noting a link changes no link. -/
theorem links_noteLink (t : BlockTable) (n : Nat) (target : UInt32) :
    Links (fun _ _ => False) t (t.noteLink n target) :=
  ⟨.noteLink t n target, fun _ _ => rfl, fun m x => by
    rw [not_false_eq_true, and_true]
    rfl⟩

/-! ## Linking the exits of a block -/

section LinkExits

variable {source n : Nat} {target : UInt32} {b d : Block} {code : Arena}

/-- The table after the exits of block `source` to `target` were marked. -/
def sendExits (t : BlockTable) (code : Arena) (source : Nat) (target : UInt32) : BlockTable :=
  { t with
    code := code
    blocks := t.blocks.modify source fun b => { b with exits := b.exits.map (·.sent target) } }

theorem getElem?_sendExits (m : Nat) :
    (t.sendExits code source target).blocks[m]? =
      if source = m then
        t.blocks[m]?.map fun b => { b with exits := b.exits.map (·.sent target) }
      else t.blocks[m]? :=
  Array.getElem?_modify

theorem unlinked_sent (b : Block) (target : UInt32) :
    Block.unlinked { b with exits := b.exits.map (·.sent target) } = b.unlinked := by
  refine congrArg (fun exits => { b with exits := exits }) ?_
  rw [Array.map_map]
  refine congrArg (b.exits.map ·) (funext fun e => ?_)
  simp only [Function.comp_apply, Exit.target_sent, Exit.offset_sent]

theorem relinks_sendExits (source : Nat) (target : UInt32) (hcode : t.code.Repaints code) :
    t.Relinks (t.sendExits code source target) := by
  refine ⟨hcode, ?_, rfl, rfl, rfl⟩
  apply Array.ext_getElem?
  intro m
  rw [Array.getElem?_map, Array.getElem?_map, getElem?_sendExits]
  split
  · rw [Option.map_map]
    exact congrArg (fun f => t.blocks[m]?.map f) (funext fun b => unlinked_sent b target)
  · rfl

theorem awaits_sent (e : Exit) (x : UInt32) :
    (e.sent target).awaits x = true ↔ e.awaits x = true ∧ x ≠ target := by
  have hlinked := Exit.linked_sent target e
  simp only [Exit.awaits, Exit.target_sent, decide_eq_true_eq, Bool.not_eq_true', hlinked,
    Bool.or_eq_false_iff, decide_eq_false_iff_not]
  constructor
  · rintro ⟨rfl, hmark, hne⟩
    exact ⟨⟨rfl, hmark⟩, hne⟩
  · rintro ⟨⟨rfl, hmark⟩, hne⟩
    exact ⟨rfl, hmark, hne⟩

/-- Marking takes away that a block awaits a guest address, and nothing else. -/
theorem awaits_sendExits (m : Nat) (x : UInt32) :
    (t.sendExits code source target).Awaits m x ↔
      t.Awaits m x ∧ ¬ (m = source ∧ x = target) := by
  unfold Awaits
  rw [getElem?_sendExits]
  by_cases hm : source = m
  · subst hm
    rw [if_pos rfl]
    constructor
    · rintro ⟨b', hb', e', he', hawaits⟩
      obtain ⟨b, hb, rfl⟩ := Option.map_eq_some_iff.1 hb'
      obtain ⟨e, he, rfl⟩ := Array.mem_map.1 he'
      obtain ⟨hawaits, hne⟩ := (awaits_sent e x).1 hawaits
      exact ⟨⟨b, hb, e, he, hawaits⟩, fun h => hne h.2⟩
    · rintro ⟨⟨b, hb, e, he, hawaits⟩, hne⟩
      refine ⟨_, by rw [hb]; rfl, e.sent target, Array.mem_map.2 ⟨e, he, rfl⟩, ?_⟩
      exact (awaits_sent e x).2 ⟨hawaits, fun h => hne ⟨rfl, h⟩⟩
  · rw [if_neg hm]
    exact ⟨fun h => ⟨h, fun h' => hm h'.1.symm⟩, fun h => h.1⟩

/-- Sending the exits of a block: what is marked and where the jumps lead. -/
theorem linkExits_eq (target : UInt32) (ht : t.Linkable offset) (hb : t.blocks[source]? = some b)
    (hd : t.blocks[n]? = some d) :
    ∃ code events, t.linkExits source target n =
        .ok (t.sendExits code source target, events) ∧
      t.code.Repaints code ∧
      (∀ i, (∀ e ∈ b.exits, i ≤ e.offset ∨ e.offset + 5 ≤ i) →
        code.written[i]? = t.code.written[i]?) ∧
      ∀ e ∈ b.exits, ∀ aim, t.code.Leads e.offset aim →
        code.Leads e.offset (if e.awaits target then d.normalEntry else aim) := by
  -- The exits are within the code and apart, as otherwise one patch might spoil another.
  have hmem := ht.tiles.mem (List.mem_of_getElem? (Array.getElem?_toList ▸ hb))
  have hwithin : ∀ e ∈ b.exits.toList, e.offset + 5 ≤ t.code.size := fun e he => by
    have := ht.wired.within source b hb e (Array.mem_toList_iff.1 he)
    omega
  obtain ⟨code, linked, heq, hcode, hframe, hleads⟩ :=
    linkExitList_eq target d.normalEntry
      (ht.wired.apart source b hb) hwithin ht.small
  refine ⟨code, if linked then [] ++ [.linked source target n] else [], ?_, hcode, ?_, ?_⟩
  · unfold linkExits
    rw [hd, hb]
    dsimp only
    rw [heq]
    refine congrArg (fun blocks => Except.ok ({ t with code := code, blocks := blocks }, _)) ?_
    apply Array.ext_getElem?
    intro m
    rw [Array.getElem?_modify, Array.getElem?_modify]
    split
    · next hm =>
      subst hm
      rw [hb, Option.map_some, Option.map_some, ← Array.toList_map, Array.toArray_toList]
    · rfl
  · simpa only [Array.mem_toList_iff] using hframe
  · simpa only [Array.mem_toList_iff] using hleads

/-- Exits of another block are not touched. -/
theorem spared_of_ne (ht : t.Linkable offset) (hb : t.blocks[source]? = some b) {m : Nat}
    (hm : source ≠ m) {c : Block} (hc : t.blocks[m]? = some c) {e : Exit} (he : e ∈ c.exits)
    {i : Nat} (hlow : e.offset ≤ i) (hhigh : i < e.offset + 5) :
    ∀ e ∈ b.exits, i ≤ e.offset ∨ e.offset + 5 ≤ i := by
  intro e' he'
  have hin := ht.wired.within m c hc e he
  have hin' := ht.wired.within source b hb e' he'
  rw [← Array.getElem?_toList] at hb hc
  rcases Nat.lt_or_gt_of_ne hm with hlt | hlt
  · have := ht.tiles.apart hlt hb hc
    omega
  · have := ht.tiles.apart hlt hc hb
    omega

/-- Marks and jumps agree after the exits of a block were sent. -/
theorem Wired.sendExits (ht : t.Linkable offset) (hb : t.blocks[source]? = some b)
    (hn : t.number? target = some n) (hd : t.blocks[n]? = some d)
    (hcode : t.code.Repaints code)
    (hframe : ∀ i, (∀ e ∈ b.exits, i ≤ e.offset ∨ e.offset + 5 ≤ i) →
      code.written[i]? = t.code.written[i]?)
    (hleads : ∀ e ∈ b.exits, ∀ aim, t.code.Leads e.offset aim →
      code.Leads e.offset (if e.awaits target then d.normalEntry else aim)) :
    (t.sendExits code source target).Wired := by
  have hblock (m : Nat) (c : Block)
      (hc : (t.sendExits code source target).blocks[m]? = some c) :
      (source = m ∧ c = { b with exits := b.exits.map (·.sent target) }) ∨
        (source ≠ m ∧ t.blocks[m]? = some c) := by
    rw [getElem?_sendExits] at hc
    split at hc
    · next hm =>
      subst hm
      rw [hb] at hc
      exact .inl ⟨rfl, (Option.some.inj hc).symm⟩
    · next hm => exact .inr ⟨hm, hc⟩
  refine ⟨fun m c hc e he => ?_, fun m c hc => ?_, fun m c hc e he => ?_⟩
  · rcases hblock m c hc with ⟨rfl, rfl⟩ | ⟨-, hc⟩
    · obtain ⟨e, he', rfl⟩ := Array.mem_map.1 he
      rw [Exit.offset_sent]
      exact ht.wired.within source b hb e he'
    · exact ht.wired.within m c hc e he
  · rcases hblock m c hc with ⟨rfl, rfl⟩ | ⟨-, hc⟩
    · rw [Array.toList_map, List.pairwise_map]
      simpa only [Exit.offset_sent] using ht.wired.apart source b hb
    · exact ht.wired.apart m c hc
  · have haim := (relinks_sendExits source target hcode).aim?_eq
    rcases hblock m c hc with ⟨rfl, rfl⟩ | ⟨hm, hc⟩
    · obtain ⟨e, he', rfl⟩ := Array.mem_map.1 he
      obtain ⟨aim, hold, hjump⟩ := ht.wired.leads source b hb e he'
      refine ⟨_, ?_, (Exit.offset_sent target e).symm ▸ hleads e he' aim hjump⟩
      rw [haim]
      split
      · next hawaits =>
        -- The exit waited for the block at its target, and that is where it was sent.
        have htarget : e.target = target := by
          simp only [Exit.awaits, decide_eq_true_eq] at hawaits
          exact hawaits.1
        rw [Exit.sent, if_pos hawaits, aim?, if_pos rfl, blockAt?, htarget, hn, Option.bind_some,
          block?, hd, Option.map_some]
      · next hawaits => rw [Exit.sent, if_neg hawaits, hold]
    · obtain ⟨aim, hold, hjump⟩ := ht.wired.leads m c hc e he
      refine ⟨aim, (haim e).trans hold, hjump.of_eq fun i hlow hhigh => hframe i ?_⟩
      exact spared_of_ne ht hb hm hc he hlow hhigh

/-- Linking the exits of a block to a guest address that has a block. -/
theorem linkExits_spec (ht : t.Linkable offset) (hsource : source < t.blocks.size)
    (hn : t.number? target = some n) :
    ∃ u events, t.linkExits source target n = .ok (u, events) ∧ u.Linkable offset ∧
      Links (fun m x => m = source ∧ x = target) t u ∧ u.linksTo = t.linksTo := by
  obtain ⟨d, hd, -⟩ := ht.indexed target n hn
  obtain ⟨b, hb⟩ : ∃ b, t.blocks[source]? = some b := ⟨_, Array.getElem?_eq_getElem hsource⟩
  obtain ⟨code, events, heq, hcode, hframe, hleads⟩ := linkExits_eq target ht hb hd
  have hrelinks : t.Relinks (t.sendExits code source target) := relinks_sendExits source target hcode
  refine ⟨_, events, heq, ?_, ⟨hrelinks, fun i hi => hframe i (hi source b hb), ?_⟩, rfl⟩
  · exact ht.relinks hrelinks (.sendExits ht hb hn hd hcode hframe hleads)
  · exact awaits_sendExits

end LinkExits

/-! ## Linking a new block -/

theorem mem_linksTo_noteLink (t : BlockTable) (n : Nat) (target x : UInt32) (m : Nat) :
    m ∈ (t.noteLink n target).linksTo.getD x [] ↔
      m ∈ t.linksTo.getD x [] ∨ (m = n ∧ x = target) := by
  rw [noteLink, Std.HashMap.getD_alter]
  by_cases hx : target = x
  · subst hx
    rw [if_pos (beq_self_eq_true target), Std.HashMap.getD_eq_getD_getElem?]
    dsimp only
    split
    · next hmem =>
      rw [Option.getD_some]
      refine ⟨.inl, ?_⟩
      rintro (h | ⟨rfl, -⟩)
      · exact h
      · exact hmem
    · rw [Option.getD_some, List.mem_append, List.mem_singleton]
      simp only [and_true]
  · rw [if_neg (by simpa using hx)]
    exact ⟨.inl, fun h => h.resolve_right fun h' => hx h'.2.symm⟩

theorem size_blocks_of_links {p : Nat → UInt32 → Prop} (h : Links p t u) :
    u.blocks.size = t.blocks.size :=
  h.size_eq

/-- The exits of a block are linked with all blocks they lead to. -/
theorem linkOut_spec (ht : t.Linkable offset) {n : Nat} (hn : n < t.blocks.size)
    (targets : List UInt32) :
    ∃ u events, linkOut n t targets = .ok (u, events) ∧ u.Linkable offset ∧
      Links (fun m x => m = n ∧ x ∈ targets ∧ (t.number? x).isSome) t u ∧
      ∀ m x, m ∈ u.linksTo.getD x [] ↔ m ∈ t.linksTo.getD x [] ∨ (m = n ∧ x ∈ targets) := by
  induction targets generalizing t with
  | nil => exact ⟨t, [], rfl, ht, (Links.refl t).of_iff (by simp), by simp⟩
  | cons target rest ih =>
    have hnote := links_noteLink t n target
    have ht' : (t.noteLink n target).Linkable offset := ⟨ht.tiles, ht.small, ht.indexed,
      ⟨ht.wired.within, ht.wired.apart, ht.wired.leads⟩⟩
    have hnumber (x : UInt32) : (t.noteLink n target).number? x = t.number? x := rfl
    rw [linkOut_cons]
    cases hd : (t.noteLink n target).number? target with
    | none =>
      -- There is no block at the target yet: its exits wait for one, and nothing is linked.
      obtain ⟨u, events, heq, hu, hlinks, hmem⟩ := ih ht' hn
      refine ⟨u, events, heq, hu, (hnote.trans hlinks).of_iff fun m x => ?_, fun m x => ?_⟩
      · rw [false_or, List.mem_cons, hnumber]
        constructor
        · rintro ⟨hm, hx, hsome⟩
          exact ⟨hm, .inr hx, hsome⟩
        · rintro ⟨hm, rfl | hx, hsome⟩
          · rw [← hnumber, hd] at hsome
            cases hsome
          · exact ⟨hm, hx, hsome⟩
      · rw [hmem, mem_linksTo_noteLink, List.mem_cons, or_assoc, ← and_or_left]
    | some d =>
      -- The exits to this target are linked first, and then those to the others.
      obtain ⟨v, out, hout, hv, hlinks, hto⟩ := linkExits_spec ht' hn hd
      have hsize : v.blocks.size = t.blocks.size := hlinks.size_eq
      obtain ⟨u, events, heq, hu, hlinks', hmem⟩ := ih hv (hsize.symm ▸ hn)
      dsimp only
      rw [hout]
      dsimp only
      rw [heq]
      refine ⟨u, _, rfl, hu, ((hnote.trans hlinks).trans hlinks').of_iff fun m x => ?_,
        fun m x => ?_⟩
      · rw [false_or, List.mem_cons, hlinks.number?_eq, hnumber, ← and_or_left]
        constructor
        · rintro ⟨hm, rfl | ⟨hx, hsome⟩⟩
          · exact ⟨hm, .inl rfl, by rw [← hnumber, hd]; rfl⟩
          · exact ⟨hm, .inr hx, hsome⟩
        · rintro ⟨hm, rfl | hx, hsome⟩
          · exact ⟨hm, .inl rfl⟩
          · exact ⟨hm, .inr ⟨hx, hsome⟩⟩
      · rw [hmem, hto, mem_linksTo_noteLink, List.mem_cons, or_assoc, ← and_or_left]

/-- The exits that wait for a block are linked with it. -/
theorem linkAll_spec (ht : t.Linkable offset) {start : UInt32} {n : Nat}
    (hn : t.number? start = some n) (sources : List Nat)
    (hsources : ∀ m ∈ sources, m < t.blocks.size) :
    ∃ u events, t.linkAll (sources.map (·, start, n)) = .ok (u, events) ∧ u.Linkable offset ∧
      Links (fun m x => x = start ∧ m ∈ sources) t u ∧ u.linksTo = t.linksTo := by
  induction sources generalizing t with
  | nil => exact ⟨t, [], rfl, ht, (Links.refl t).of_iff (by simp), rfl⟩
  | cons source rest ih =>
    obtain ⟨v, out, hout, hv, hlinks, hto⟩ :=
      linkExits_spec ht (hsources source List.mem_cons_self) hn
    have hsize : v.blocks.size = t.blocks.size := hlinks.size_eq
    obtain ⟨u, events, heq, hu, hlinks', hto'⟩ := ih hv ((hlinks.number?_eq start).trans hn)
      fun m hm => hsize.symm ▸ hsources m (List.mem_cons_of_mem _ hm)
    rw [List.map_cons, linkAll_cons, hout]
    dsimp only
    rw [heq]
    refine ⟨u, _, rfl, hu, (hlinks.trans hlinks').of_iff fun m x => ?_, hto'.trans hto⟩
    rw [List.mem_cons]
    constructor
    · rintro (⟨hm, hx⟩ | ⟨hx, hm⟩)
      · exact ⟨hx, .inl hm⟩
      · exact ⟨hx, .inr hm⟩
    · rintro ⟨hx, hm | hm⟩
      · exact .inl ⟨hm, hx⟩
      · exact .inr ⟨hx, hm⟩

/-- Publishing a block without linking changes no link; with linking, its exits and those that wait
for it are linked, as far as there are blocks. -/
theorem finalize_spec {n : Nat} {b : Block} (link : Bool) (hb : t.blocks[n]? = some b)
    (ht : (t.enlisted n b).Linkable offset)
    (hknown : ∀ x, ∀ m ∈ t.linksTo.getD x [], m < t.blocks.size) :
    ∃ u events, t.finalize n link = .ok (u, events) ∧ u.Linkable offset ∧
      Links (fun m x => link = true ∧ ((m = n ∧ (∃ e ∈ b.exits, e.target = x) ∧
          ((t.enlisted n b).number? x).isSome) ∨
        (x = b.start ∧ (m ∈ t.linksTo.getD x [] ∨ (m = n ∧ ∃ e ∈ b.exits, e.target = x)))))
        (t.enlisted n b) u ∧
      ∀ m x, m ∈ u.linksTo.getD x [] ↔
        m ∈ t.linksTo.getD x [] ∨ (link = true ∧ m = n ∧ ∃ e ∈ b.exits, e.target = x) := by
  have hsize : (t.enlisted n b).blocks.size = t.blocks.size := Array.size_modify
  have hn : n < t.blocks.size := (Array.getElem?_eq_some_iff.1 hb).1
  have hstart : (t.enlisted n b).number? b.start = some n := Std.HashMap.getElem?_insert_self
  have htargets (x : UInt32) :
      x ∈ b.exits.toList.map (·.target) ↔ ∃ e ∈ b.exits, e.target = x := by
    rw [List.mem_map]
    simp only [Array.mem_toList_iff]
  rw [finalize_eq hb]
  dsimp only
  cases link with
  | false =>
    refine ⟨_, _, rfl, ht, (Links.refl _).of_iff fun m x => ?_, fun m x => ?_⟩
    · simp only [Bool.false_eq_true, false_and]
    · simp only [Bool.false_eq_true, false_and, or_false]
      rfl
  | true =>
    -- The exits of the new block are linked first, and then those that waited for it.
    obtain ⟨v, out, hout, hv, hlinks, hmem⟩ :=
      linkOut_spec ht (hsize.symm ▸ hn) (b.exits.toList.map (·.target))
    have hvsize : v.blocks.size = t.blocks.size := hlinks.size_eq.trans hsize
    obtain ⟨u, back, hback, hu, hlinks', hto⟩ :=
      linkAll_spec hv ((hlinks.number?_eq b.start).trans hstart) (v.linksTo.getD b.start [])
        fun m hm => by
          rcases (hmem m b.start).1 hm with hm | ⟨rfl, -⟩
          · exact hvsize.symm ▸ hknown b.start m hm
          · exact hvsize.symm ▸ hn
    rw [if_pos rfl, hout]
    dsimp only
    rw [show v.linkIn n b.start = .ok (u, back) from hback]
    refine ⟨u, _, rfl, hu, (hlinks.trans hlinks').of_iff fun m x => ?_, fun m x => ?_⟩
    · rw [htargets, eq_self, true_and]
      refine or_congr_right ⟨?_, ?_⟩
      · rintro ⟨rfl, hm⟩
        rw [hmem, htargets] at hm
        exact ⟨rfl, hm⟩
      · rintro ⟨rfl, hm⟩
        refine ⟨rfl, ?_⟩
        rw [hmem, htargets]
        exact hm
    · rw [hto, hmem, htargets]
      simp only [true_and]
      rfl

end BlockTable

end Recompiler
