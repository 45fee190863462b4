import Recompiler.Proofs.Block.Filled

/-!
# Blocks elsewhere

What a block is compiled to does not depend on where its code lies or where its exits lead, and it is
compiled exactly if there is room for it.

* `Layout.stop_add`, `Layout.places_add`: moving symbolic code by a multiple of its alignments.
* `Item.aimless`: symbolic code up to where its exits lead.
* `Arena.overflowed_assemble`: code is dropped exactly if it does not fit.
* `Lower.block_elsewhere`, `BlockTable.lower_elsewhere`: lowering the same guest code for two tables.
* `Block.shape`, `Lowering.shape`: a block up to where it lies, and that of a lowering.
-/

namespace Recompiler

/-! ## Moving code -/

/-- Only filler knows where it is. -/
theorem Item.size_add {item : Item} {d : Nat} (h : ∀ n, item = .align n → n ∣ d) (offset : Nat) :
    item.size (offset + d) = item.size offset := by
  cases item with
  | align n =>
    obtain ⟨k, rfl⟩ := h n rfl
    simp only [size, Nat.add_mul_mod_self_left]
  | _ => rfl

namespace Layout

theorem stop_add {d : Nat} {items : List Item} (h : ∀ n, .align n ∈ items → n ∣ d) (offset : Nat) :
    stop (offset + d) items = stop offset items + d := by
  induction items generalizing offset with
  | nil => rfl
  | cons item rest ih =>
    rw [stop, stop, Item.size_add fun n hn => h n (hn ▸ List.mem_cons_self), Nat.add_right_comm]
    exact ih (fun n hn => h n (List.mem_cons_of_mem _ hn)) _

theorem places_add {d : Nat} {items : List Item} (h : ∀ n, .align n ∈ items → n ∣ d)
    (entry entry' offset : Nat) :
    (exits entry' (offset + d) items).map (·.1.place) =
      ((exits entry offset items).map (·.1.place)).map fun place => (place.1, place.2 + d) := by
  induction items generalizing entry entry' offset with
  | nil => rfl
  | cons item rest ih =>
    have hrest := ih fun n hn => h n (List.mem_cons_of_mem _ hn)
    have hsize := Item.size_add (fun n hn => h n (hn ▸ List.mem_cons_self)) offset
    cases item with
    | leave target destination linked =>
      simp only [exits, List.map_cons]
      rw [Nat.add_right_comm, hrest entry entry']
      rfl
    | entry => exact hrest offset (offset + d) offset
    | _ =>
      simp only [exits]
      rw [hsize, Nat.add_right_comm, hrest entry entry']

end Layout

/-! ## Leading exits elsewhere -/

/-- The item without where it leads, if it is an exit. -/
def Item.aimless : Item → Item
  | leave target _ _ => leave target (.offset 0) false
  | item => item

@[simp] theorem Item.size_aimless (item : Item) (offset : Nat) :
    item.aimless.size offset = item.size offset := by
  cases item <;> rfl

namespace Layout

@[simp] theorem stop_aimless (offset : Nat) (items : List Item) :
    stop offset (items.map Item.aimless) = stop offset items := by
  induction items generalizing offset with
  | nil => rfl
  | cons item rest ih => rw [List.map_cons, stop, stop, Item.size_aimless, ih]

@[simp] theorem places_aimless (entry offset : Nat) (items : List Item) :
    (exits entry offset (items.map Item.aimless)).map (·.1.place) =
      (exits entry offset items).map (·.1.place) := by
  induction items generalizing entry offset with
  | nil => rfl
  | cons item rest ih =>
    cases item with
    | leave target destination linked =>
      change (target, offset) :: _ = (target, offset) :: _
      rw [ih]
    | entry => exact ih _ _
    | _ => exact ih entry _

end Layout

/-! ## Room for code -/

namespace Arena

variable {a : Arena}

/-- Pieces that fit are appended. -/
theorem overflowed_foldl_emit {pieces : List (List UInt8)} (hclean : a.overflowed = false)
    (hfits : a.size + pieces.flatten.length ≤ a.limit) :
    (pieces.foldl emit a).overflowed = false := by
  induction pieces generalizing a with
  | nil => exact hclean
  | cons piece rest ih =>
    rw [List.flatten_cons, List.length_append] at hfits
    rw [List.foldl_cons, emit_of_fits hclean (by omega)]
    refine ih hclean ?_
    change (a.append piece).size + _ ≤ a.limit
    rw [size_append]
    omega

theorem overflowed_write {i : HostInstruction} (hclean : a.overflowed = false)
    (hfits : a.size + i.encode.length ≤ a.limit) : (a.write i).overflowed = false :=
  overflowed_foldl_emit hclean hfits

theorem overflowed_fill {count : Nat} (hclean : a.overflowed = false)
    (hfits : a.size + count ≤ a.limit) : (fill count a).overflowed = false := by
  induction count generalizing a with
  | zero => exact hclean
  | succ count ih =>
    have hwrite := overflowed_write (i := .trap) hclean (Nat.le_trans (Nat.add_le_add_left
      (show HostInstruction.trap.encode.length ≤ count + 1 from Nat.succ_le_succ (Nat.zero_le _))
      a.size) hfits)
    have hsize : (a.write .trap).size = a.size + 1 := by
      rw [(write_eq_append hwrite).1, size_append]
      rfl
    have hlimit := limit_write a .trap
    simp only [fill]
    split
    · exact hwrite
    · exact ih hwrite (by omega)

end Arena

namespace Assembly

variable {s : Assembly}

/-- An item that fits is not dropped. -/
theorem overflowed_step {item : Item} (hclean : s.code.overflowed = false)
    (hfits : s.code.size + item.size s.code.size ≤ s.code.limit) :
    (s.step item).code.overflowed = false := by
  obtain ⟨code, pending, exits, entry⟩ := s
  cases item with
  | instruction i => exact Arena.overflowed_write hclean hfits
  | jump label => exact Arena.overflowed_emit_eq_false.2 ⟨hclean, hfits⟩
  | jumpIf c label => exact Arena.overflowed_emit_eq_false.2 ⟨hclean, hfits⟩
  | bind label =>
    rw [code_step_bind]
    split
    · rw [Arena.overflowed_bind]
      exact hclean
    · exact hclean
  | jumpTo target => exact Arena.overflowed_write hclean hfits
  | jumpIfTo c target => exact Arena.overflowed_write hclean hfits
  | leave target destination linked => exact Arena.overflowed_write hclean hfits
  | entry => exact hclean
  | align alignment => exact Arena.overflowed_fill hclean hfits

/-- Nothing is dropped as long as everything fits. -/
theorem overflowed_foldl {items : List Item} (hclean : s.code.overflowed = false)
    (hfits : Layout.stop s.code.size items ≤ s.code.limit) :
    (items.foldl step s).code.overflowed = false := by
  induction items generalizing s with
  | nil => exact hclean
  | cons item rest ih =>
    have hstep : (s.step item).code.overflowed = false :=
      overflowed_step hclean (Nat.le_trans (Layout.le_stop _ rest) hfits)
    rw [List.foldl_cons]
    refine ih hstep ?_
    rw [size_step_of_clean hstep, (extends_step s item).limit]
    exact hfits

end Assembly

/-- Code is dropped exactly if it does not fit. -/
theorem Arena.overflowed_assemble {a : Arena} (hclean : a.overflowed = false)
    (hroom : a.size ≤ a.limit) (items : Array Item) :
    (a.assemble items).code.overflowed = false ↔ Layout.stop a.size items.toList ≤ a.limit := by
  have hextends := Assembly.extends_assemble a items
  have hle := hextends.within hroom
  rw [hextends.limit] at hle
  rw [Assembly.assemble_eq_foldl] at hle ⊢
  constructor
  · intro h
    rw [Assembly.size_foldl_of_clean h] at hle
    exact hle
  · exact Assembly.overflowed_foldl (s := .start a) hclean

/-! ## Lowering elsewhere -/

variable {β : Type}

/-- The lowerings have the same code up to where exits lead, and as many instructions. -/
structure Lowering.Resembles (r r' : Lowering β) : Prop where
  code : r'.code.toList.map Item.aimless = r.code.toList.map Item.aimless
  instructions : r'.instructions = r.instructions

namespace Surroundings

/-- Appending the same items, exits to the same guest addresses included, keeps code the same up to
where exits lead. -/
theorem keepsRelated_aimless (s s' : Surroundings) :
    s.KeepsRelated s' fun c c' => c'.toList.map Item.aimless = c.toList.map Item.aimless where
  plain items _ h := by
    rw [Array.toList_appendList, Array.toList_appendList, List.map_append, List.map_append, h]
  exit target h := by
    rw [Array.toList_appendList, Array.toList_appendList, List.map_append, List.map_append, h]
    rfl

end Surroundings

/-- What a block is lowered to depends on its words only, and not on links. -/
theorem Lower.block_elsewhere [Bus β] {s s' : Surroundings} (hkin : s.Kin s') {q : β → β → Prop}
    (hq : Bus.Matched q) {bus bus' : β} (hbus : q bus bus') (start : UInt32) :
    (exec (block start) s' (.initial bus' start)).1 =
        (exec (block start) s (.initial bus start)).1 ∧
      (exec (block start) s (.initial bus start)).2.Resembles
        (exec (block start) s' (.initial bus' start)).2 ∧
      q (exec (block start) s (.initial bus start)).2.bus
        (exec (block start) s' (.initial bus' start)).2.bus := by
  have hentered : (Lowering.entered bus s.stubs start).Alike q
      (fun c c' => c'.toList.map Item.aimless = c.toList.map Item.aimless)
      (.entered bus' s'.stubs start) := by
    rw [hkin.stubs]
    exact ⟨rfl, hbus, rfl⟩
  have hbody := (Orderly.body (β := β) start s.options.maxBlockInstructions).uniform hkin hq
    (Surroundings.keepsRelated_aimless _ _) hentered
  rw [exec_block, exec_block, hkin.options.maxBlockInstructions]
  generalize exec (body start _) s (Lowering.entered bus s.stubs start) = x at hbody ⊢
  generalize exec (body start _) s' (Lowering.entered bus' s'.stubs start) = y at hbody ⊢
  obtain ⟨outcome, r⟩ := x
  obtain ⟨outcome', r'⟩ := y
  obtain ⟨houtcome, hcode, hrelated, hothers⟩ := hbody
  dsimp only at houtcome hcode hrelated hothers
  subst houtcome
  have hinstructions : r'.instructions = r.instructions := congrArg (·.instructions) hothers
  cases outcome' with
  | error f => exact ⟨rfl, ⟨hcode, hinstructions⟩, hrelated⟩
  | ok a =>
    refine ⟨rfl, ⟨?_, hinstructions⟩, hrelated⟩
    rw [Array.toList_appendList, Array.toList_appendList, List.map_append, List.map_append, hcode]

namespace BlockTable

variable [Bus β] {t u : BlockTable} {bus bus' : β} {o o' : Options} {regions : List FastRegion}
  {start : UInt32}

/-- What a block is lowered to depends on its words only, and not on the blocks that are there. -/
theorem lower_elsewhere (ho : o.Akin o') (hstubs : u.stubs = t.stubs) {q : β → β → Prop}
    (hq : Bus.Matched q) (hbus : q bus bus') :
    (u.lower bus' o' regions start).1 = (t.lower bus o regions start).1 ∧
      (t.lower bus o regions start).2.Resembles (u.lower bus' o' regions start).2 ∧
      q (t.lower bus o regions start).2.bus (u.lower bus' o' regions start).2.bus := by
  have hkin : (t.surroundings o regions start).Kin (u.surroundings o' regions start) :=
    ⟨ho, rfl, hstubs⟩
  exact Lower.block_elsewhere hkin hq hbus start

end BlockTable

/-! ## The shape of a block -/

/-- A block up to where it lies and where its exits lead. -/
structure Block.Shape where
  /-- The number of bytes of host code. -/
  codeSize : Nat
  /-- The number of guest instructions. -/
  instructions : UInt32
  /-- How far the entry for blocks that have checked the budget is behind the other. -/
  normalEntry : Int
  /-- The guest addresses of the exits, and how far these are behind the entry. -/
  exits : List (UInt32 × Int)
  deriving DecidableEq, Repr

/-- The shape of a block. -/
def Block.shape (b : Block) : Shape where
  codeSize := b.codeSize
  instructions := b.instructions
  normalEntry := b.normalEntry - b.checkedEntry
  exits := b.places.map fun place => (place.1, place.2 - b.checkedEntry)

/-- The number of bytes that lowered code takes behind the code of other blocks. -/
def Lowering.length (r : Lowering β) : Nat :=
  Layout.stop 0 r.code.toList

/-- The shape of the block that is made from a lowering. -/
def Lowering.shape (r : Lowering β) : Block.Shape where
  codeSize := r.length
  instructions := r.instructions
  normalEntry := 30
  exits := ((Layout.exits 0 0 r.code.toList).map (·.1.place)).map fun place => (place.1, place.2)

theorem Block.shape_eq_of_unlinked {b b' : Block} (h : b'.unlinked = b.unlinked) :
    b'.shape = b.shape := by
  have hplaces : b'.places = b.places := by
    rw [← b'.places_unlinked, h, b.places_unlinked]
  have hentry : b'.checkedEntry = b.checkedEntry := congrArg (·.checkedEntry) h
  have hsize : b'.codeSize = b.codeSize := congrArg (·.codeSize) h
  have hnormal : b'.normalEntry = b.normalEntry := congrArg (·.normalEntry) h
  have hinstructions : b'.instructions = b.instructions := congrArg (·.instructions) h
  rw [shape, shape, hplaces, hentry, hsize, hnormal, hinstructions]

namespace Lowering.Resembles

variable {r r' : Lowering β}

theorem length_eq (h : r.Resembles r') : r'.length = r.length := by
  rw [length, length, ← Layout.stop_aimless, h.code, Layout.stop_aimless]

theorem shape_eq (h : r.Resembles r') : r'.shape = r.shape := by
  have hplaces := congrArg (fun items => (Layout.exits 0 0 items).map (·.1.place)) h.code
  simp only [Layout.places_aimless] at hplaces
  rw [shape, shape, h.length_eq, h.instructions, hplaces]

end Lowering.Resembles

namespace BlockTable

variable [Bus β] {t : BlockTable} {bus : β} {o : Options} {regions : List FastRegion}
  {start : UInt32}

/-- The only filler in the code of a block is at its end. -/
theorem align_mem_lower (hok : (t.lower bus o regions start).1 = .ok ()) {n : Nat}
    (h : .align n ∈ (t.lower bus o regions start).2.code.toList) : n ∣ Lower.blockAlignment := by
  obtain ⟨more, hcode, -, hmore⟩ := Lower.items_block start (t.surroundings o regions start) bus hok
  change (t.lower bus o regions start).2.code.toList = _ at hcode
  rw [hcode, List.mem_append, List.mem_append] at h
  rcases h with (h | h) | h
  · simp [Lower.entryItems] at h
  · rcases hmore _ h with hplain | ⟨target, htarget⟩
    · cases hplain
    · cases htarget
  · obtain rfl : n = Lower.blockAlignment := by simpa using h
    exact Nat.dvd_refl _

/-- Where the code of a block ends behind other code. -/
theorem stop_lower (haligned : Lower.blockAlignment ∣ t.code.size)
    (hok : (t.lower bus o regions start).1 = .ok ()) :
    Layout.stop t.code.size (t.lower bus o regions start).2.code.toList =
      t.code.size + (t.lower bus o regions start).2.length := by
  have hstop := Layout.stop_add (d := t.code.size) (fun n h =>
    Nat.dvd_trans (align_mem_lower hok h) haligned) 0
  rw [Nat.zero_add] at hstop
  rw [hstop, Lowering.length, Nat.add_comm]

/-- A new block has the shape of its lowering. -/
theorem shape_newBlock (ht : t.Sound) (haligned : Lower.blockAlignment ∣ t.code.size)
    (hok : (t.lower bus o regions start).1 = .ok ())
    (hclean : (t.extended (t.lower bus o regions start).2).code.overflowed = false) :
    (t.newBlock start (t.lower bus o regions start).2).shape =
      (t.lower bus o regions start).2.shape := by
  have hfilled := filled_newBlock ht hok hclean
  have hstop := hfilled.stop
  have hplaces := hfilled.places
  have hnormal := hfilled.normal
  have hmoved := Layout.places_add (d := t.code.size) (fun n h =>
    Nat.dvd_trans (align_mem_lower hok h) haligned) 0 t.code.size 0
  rw [Nat.zero_add] at hmoved
  change Layout.stop t.code.size _ = t.code.size + _ at hstop
  rw [stop_lower haligned hok] at hstop
  change Block.places _ = (Layout.exits t.code.size t.code.size _).map _ at hplaces
  rw [hmoved] at hplaces
  change _ = t.code.size + 30 at hnormal
  have hsize := Nat.add_left_cancel hstop
  rw [Block.shape, Lowering.shape, hplaces, hnormal, ← hsize, List.map_map]
  simp only [newBlock, Function.comp_def, Block.Shape.mk.injEq, true_and]
  refine ⟨by omega, List.map_congr_left fun place _ => Prod.ext rfl ?_⟩
  dsimp only
  omega

end BlockTable

end Recompiler
