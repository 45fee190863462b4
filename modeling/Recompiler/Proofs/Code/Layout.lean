import Recompiler.Proofs.Code.Writing

/-!
# The layout of assembled code

Where the steps of an assembly end up and which bytes stand there, as long as nothing was dropped.

* `Item.size`, `Layout.stop`, `Layout.labelOffset?`, `Layout.exits`, `Layout.entry`: offsets, read
  off the symbolic code alone.
* `Laid`: some bytes are an assembly of the symbolic code. The destinations of exits are left open,
  because linking changes them.
* `Arena.laidOut_assemble`: assembling symbolic code lays it out behind what was there before.
-/

namespace Recompiler

/-- The bytes from `offset` on are `bytes`. -/
def HasBytes (code : Array UInt8) (offset : Nat) (bytes : List UInt8) : Prop :=
  ∀ i < bytes.length, code[offset + i]? = bytes[i]?

namespace HasBytes

variable {code code' : Array UInt8} {offset : Nat} {bytes more : List UInt8}

/-- Bytes that stay the same over a range still hold there. -/
theorem of_eq (h : HasBytes code offset bytes)
    (heq : ∀ i, offset ≤ i → i < offset + bytes.length → code'[i]? = code[i]?) :
    HasBytes code' offset bytes := by
  intro i hi
  rw [heq (offset + i) (by omega) (by omega), h i hi]

theorem append_iff : HasBytes code offset (bytes ++ more) ↔
    HasBytes code offset bytes ∧ HasBytes code (offset + bytes.length) more := by
  constructor
  · intro h
    constructor
    · intro i hi
      rw [h i (by simp; omega), List.getElem?_append_left hi]
    · intro i hi
      rw [Nat.add_assoc, h (bytes.length + i) (by simp; omega),
        List.getElem?_append_right (by omega), Nat.add_sub_cancel_left]
  · rintro ⟨h, h'⟩ i hi
    by_cases hlt : i < bytes.length
    · rw [h i hlt, List.getElem?_append_left hlt]
    · rw [List.getElem?_append_right (by omega), ← h' (i - bytes.length) (by simp at hi; omega),
        show offset + bytes.length + (i - bytes.length) = offset + i by omega]

/-- Bytes that hold somewhere lie inside the code. -/
theorem le_size (h : HasBytes code offset bytes) (hne : bytes ≠ []) :
    offset + bytes.length ≤ code.size := by
  have hlen : 0 < bytes.length := List.length_pos_iff.2 hne
  have hlast := h (bytes.length - 1) (by omega)
  rw [List.getElem?_eq_getElem (by omega)] at hlast
  have := (Array.getElem?_eq_some_iff.1 hlast).1
  omega

/-- The bytes are what is read over their range. -/
theorem window_eq {a : Arena} (h : HasBytes a.written offset bytes) :
    a.window offset bytes.length = bytes := by
  apply List.ext_getElem?
  intro i
  rw [Arena.window, Array.getElem?_toList, Array.getElem?_extract]
  by_cases hi : i < bytes.length
  · have hsize := (Array.getElem?_eq_some_iff.1 ((h i hi).trans (List.getElem?_eq_getElem hi))).1
    rw [if_pos (by omega), h i hi]
  · rw [if_neg (by omega), List.getElem?_eq_none (by omega)]

theorem bytes_eq {a : Arena} (h : HasBytes a.written offset bytes)
    (h64 : offset + bytes.length < UInt64.size) : a.bytes offset bytes.length = bytes := by
  have hwindow : a.bytes offset bytes.length = a.window offset bytes.length := by
    simp [Arena.bytes, Arena.window, Nat.mod_eq_of_lt h64, Array.extract, Arena.size]
  rw [hwindow, h.window_eq]

end HasBytes

theorem hasBytes_jump {code : Array UInt8} {offset : Nat} {distance : UInt32} :
    HasBytes code offset (HostInstruction.jump distance).encode ↔
      HasBytes code offset [0xE9] ∧ HasBytes code (offset + 1) (Word.bytes distance) :=
  HasBytes.append_iff

theorem hasBytes_jumpIf {code : Array UInt8} {offset : Nat} {c : Condition} {distance : UInt32} :
    HasBytes code offset (HostInstruction.jumpIf c distance).encode ↔
      HasBytes code offset [0x0F, 0x80 ||| c.code] ∧
        HasBytes code (offset + 2) (Word.bytes distance) :=
  HasBytes.append_iff

theorem hasBytes_overwrite {code : Array UInt8} {offset : Nat} {bytes : List UInt8}
    (h : offset + bytes.length ≤ code.size) :
    HasBytes (Arena.overwrite code offset bytes) offset bytes :=
  fun _ hi => Arena.getElem?_overwrite_add hi h

theorem hasBytes_append (a : Arena) (bytes : List UInt8) :
    HasBytes (a.append bytes).written a.size bytes := by
  intro i _
  rw [Arena.getElem?_append, if_neg (by omega), Nat.add_sub_cancel_left]

/-! ## Offsets -/

namespace Destination

/-- The offset of a destination, for code whose entry is marked at `entry`. -/
def resolve (entry : Nat) : Destination → Nat
  | offset target => target
  | ownEntry => entry

end Destination

namespace Item

/-- The number of bytes of an item that begins at `offset`. -/
def size (offset : Nat) : Item → Nat
  | instruction i => i.encode.length
  | jump _ | jumpTo _ | leave .. => 5
  | jumpIf .. | jumpIfTo .. => 6
  | bind _ | entry => 0
  | align alignment => (alignment - offset % alignment) % alignment

/-- The bytes of an item that begins at `offset`, as they are written at first. -/
def bytes (entry offset : Nat) : Item → List UInt8
  | instruction i => i.encode
  | jump _ => (HostInstruction.jump 0).encode
  | jumpIf c _ => (HostInstruction.jumpIf c 0).encode
  | jumpTo target => (HostInstruction.jump (jumpDistance target (offset + 5))).encode
  | jumpIfTo c target => (HostInstruction.jumpIf c (jumpDistance target (offset + 6))).encode
  | leave _ destination _ =>
    (HostInstruction.jump (jumpDistance (destination.resolve entry) (offset + 5))).encode
  | bind _ | .entry => []
  | align alignment => List.replicate ((alignment - offset % alignment) % alignment) 0xCC

@[simp] theorem length_bytes (entry offset : Nat) (item : Item) :
    (item.bytes entry offset).length = item.size offset := by
  cases item <;> simp [bytes, size, HostInstruction.encode, HostInstruction.pieces]

/-- The label that an item jumps to. -/
def jumpLabel? : Item → Option Nat
  | jump label | jumpIf _ label => some label
  | _ => none

/-- The label that an item binds. -/
def bindLabel? : Item → Option Nat
  | bind label => some label
  | _ => none

theorem eq_bind_of_bindLabel? {item : Item} {label : Nat} (h : item.bindLabel? = some label) :
    item = bind label := by
  cases item <;> simp_all [bindLabel?]

end Item

/-- The labels that symbolic code jumps to, in order. -/
def jumpLabels (items : List Item) : List Nat :=
  items.filterMap Item.jumpLabel?

/-- The labels that symbolic code binds, in order. -/
def bindLabels (items : List Item) : List Nat :=
  items.filterMap Item.bindLabel?

@[simp] theorem bindLabels_instructions (is : List HostInstruction) :
    bindLabels (is.map Item.instruction) = [] := by
  simp [bindLabels, Item.bindLabel?]

theorem bindLabels_bind (label : Nat) (rest : List Item) :
    bindLabels (.bind label :: rest) = label :: bindLabels rest := rfl

theorem not_mem_bindLabels_cons {label : Nat} {item : Item} {items : List Item}
    (h : label ∉ bindLabels (item :: items)) : item ≠ .bind label ∧ label ∉ bindLabels items := by
  refine ⟨?_, fun hmem => h ?_⟩
  · rintro rfl
    exact h List.mem_cons_self
  · exact ((List.sublist_cons_self item items).filterMap Item.bindLabel?).mem hmem

theorem bindLabels_cons {item : Item} (h : item.bindLabel? = none) (rest : List Item) :
    bindLabels (item :: rest) = bindLabels rest := by
  simp [bindLabels, h]

theorem jumpLabels_cons {item : Item} (rest : List Item) :
    jumpLabels (item :: rest) = item.jumpLabel?.toList ++ jumpLabels rest := by
  cases h : item.jumpLabel? <;> simp [jumpLabels, h]

/-- Each label belongs to one jump and is bound once. -/
structure UniqueLabels (items : List Item) : Prop where
  jumps : (jumpLabels items).Nodup
  binds : (bindLabels items).Nodup

namespace Layout

/-- The offset behind symbolic code that begins at `offset`. -/
def stop (offset : Nat) : List Item → Nat
  | [] => offset
  | item :: rest => stop (offset + item.size offset) rest

/-- The offset at which a label is bound first. -/
def labelOffset? (label offset : Nat) : List Item → Option Nat
  | [] => none
  | .bind label' :: rest =>
    if label' = label then some offset else labelOffset? label offset rest
  | item :: rest => labelOffset? label (offset + item.size offset) rest

/-- The exits of symbolic code, each with the offset it leads to at first. -/
def exits (entry offset : Nat) : List Item → List (Exit × Nat)
  | [] => []
  | .leave target destination linked :: rest =>
    (⟨target, offset, linked⟩, destination.resolve entry) :: exits entry (offset + 5) rest
  | .entry :: rest => exits offset offset rest
  | item :: rest => exits entry (offset + item.size offset) rest

/-- The offset of the entry marked last. -/
def entry (marked offset : Nat) : List Item → Nat
  | [] => marked
  | .entry :: rest => entry offset offset rest
  | item :: rest => entry marked (offset + item.size offset) rest

theorem le_stop (offset : Nat) (items : List Item) : offset ≤ stop offset items := by
  induction items generalizing offset with
  | nil => exact Nat.le_refl _
  | cons item rest ih => exact Nat.le_trans (Nat.le_add_right _ _) (ih _)

theorem stop_append (offset : Nat) (items more : List Item) :
    stop offset (items ++ more) = stop (stop offset items) more := by
  induction items generalizing offset with
  | nil => rfl
  | cons item rest ih => exact ih _

end Layout

namespace Layout

variable {item : Item}

theorem labelOffset?_cons (h : item.bindLabel? = none) (label offset : Nat) (rest : List Item) :
    labelOffset? label offset (item :: rest) =
      labelOffset? label (offset + item.size offset) rest := by
  cases item <;> first | rfl | simp [Item.bindLabel?] at h

theorem labelOffset?_bind (label label' offset : Nat) (rest : List Item) :
    labelOffset? label offset (.bind label' :: rest) =
      if label' = label then some offset else labelOffset? label offset rest := rfl

/-- A label that is bound has an offset. -/
theorem exists_labelOffset? {label : Nat} {items : List Item} (h : label ∈ bindLabels items)
    (offset : Nat) : ∃ target, labelOffset? label offset items = some target := by
  induction items generalizing offset with
  | nil => cases h
  | cons item rest ih =>
    cases hbind : item.bindLabel? with
    | none =>
      rw [labelOffset?_cons hbind]
      exact ih (bindLabels_cons hbind rest ▸ h) _
    | some label' =>
      obtain rfl := Item.eq_bind_of_bindLabel? hbind
      rw [labelOffset?_bind]
      split
      · exact ⟨offset, rfl⟩
      · next hne =>
        rw [bindLabels_bind] at h
        exact ih ((List.mem_cons.1 h).resolve_left fun heq => hne heq.symm) offset

/-- Exits lie inside the code they belong to. -/
theorem exits_within {e : Exit × Nat} {entry offset : Nat} {items : List Item}
    (h : e ∈ exits entry offset items) :
    offset ≤ e.1.offset ∧ e.1.offset + 5 ≤ stop offset items := by
  induction items generalizing entry offset with
  | nil => simp [exits] at h
  | cons item rest ih =>
    have hsub {entry : Nat} (h : e ∈ exits entry (offset + item.size offset) rest) :
        offset ≤ e.1.offset ∧ e.1.offset + 5 ≤ stop offset (item :: rest) := by
      have := ih h
      exact ⟨by omega, this.2⟩
    cases item with
    | leave target destination linked =>
      rcases List.mem_cons.1 h with rfl | h
      · exact ⟨Nat.le_refl _, le_stop _ rest⟩
      · exact hsub h
    | _ => exact hsub h

/-- Exits lie one behind the other. -/
theorem exits_pairwise (entry offset : Nat) (items : List Item) :
    (exits entry offset items).Pairwise fun e e' => e.1.offset + 5 ≤ e'.1.offset := by
  induction items generalizing entry offset with
  | nil => exact .nil
  | cons item rest ih =>
    cases item with
    | leave target destination linked =>
      exact List.pairwise_cons.2 ⟨fun e he => (exits_within he).1, ih _ _⟩
    | _ => exact ih _ _

/-- Every exit comes from an item. -/
theorem exists_leave_of_mem_exits {e : Exit × Nat} {entry offset : Nat} {items : List Item}
    (h : e ∈ exits entry offset items) :
    ∃ destination entry', .leave e.1.target destination e.1.linked ∈ items ∧
      e.2 = destination.resolve entry' := by
  induction items generalizing entry offset with
  | nil => simp [exits] at h
  | cons item rest ih =>
    have hsub {entry offset : Nat} (h : e ∈ exits entry offset rest) :
        ∃ destination entry', .leave e.1.target destination e.1.linked ∈ item :: rest ∧
          e.2 = destination.resolve entry' := by
      obtain ⟨destination, entry', hmem, heq⟩ := ih h
      exact ⟨destination, entry', List.mem_cons_of_mem _ hmem, heq⟩
    cases item with
    | leave target destination linked =>
      rcases List.mem_cons.1 h with rfl | h
      · exact ⟨destination, entry, List.mem_cons_self, rfl⟩
      · exact hsub h
    | _ => exact hsub h

/-- Without another mark the entry stays where it was marked. -/
theorem entry_eq {marked offset : Nat} {items : List Item} (h : .entry ∉ items) :
    entry marked offset items = marked := by
  induction items generalizing offset with
  | nil => rfl
  | cons item rest ih =>
    have hrest : Item.entry ∉ rest := fun hmem => h (List.mem_cons_of_mem _ hmem)
    cases item with
    | entry => exact absurd List.mem_cons_self h
    | _ => exact ih hrest

theorem stop_align (offset alignment : Nat) (items : List Item) (h : 0 < alignment) :
    stop offset (items ++ [.align alignment]) % alignment = 0 := by
  rw [stop_append]
  change (stop offset items + (alignment - stop offset items % alignment) % alignment) %
    alignment = 0
  have hlt := Nat.mod_lt (stop offset items) h
  rw [Nat.add_mod, Nat.mod_mod]
  by_cases hzero : stop offset items % alignment = 0
  · simp [hzero]
  · rw [Nat.mod_eq_of_lt (a := alignment - _) (by omega),
      show stop offset items % alignment + (alignment - stop offset items % alignment) =
        alignment by omega, Nat.mod_self]

end Layout

/-! ## Laid out code -/

/-- The bytes of an item that begins at `offset` and stands before `rest`. -/
def Item.Placed (code : Array UInt8) (offset : Nat) (rest : List Item) : Item → Prop
  | .instruction i => HasBytes code offset i.encode
  | .jump label => ∀ target, Layout.labelOffset? label (offset + 5) rest = some target →
      HasBytes code offset (HostInstruction.jump (jumpDistance target (offset + 5))).encode
  | .jumpIf c label => ∀ target, Layout.labelOffset? label (offset + 6) rest = some target →
      HasBytes code offset (HostInstruction.jumpIf c (jumpDistance target (offset + 6))).encode
  | .jumpTo target =>
      HasBytes code offset (HostInstruction.jump (jumpDistance target (offset + 5))).encode
  | .jumpIfTo c target =>
      HasBytes code offset (HostInstruction.jumpIf c (jumpDistance target (offset + 6))).encode
  | .leave .. => ∃ distance, HasBytes code offset (HostInstruction.jump distance).encode
  | .bind _ | .entry | .align _ => True

/-- The code holds an assembly of symbolic code from `offset` on. -/
def Laid (code : Array UInt8) : (offset : Nat) → List Item → Prop
  | _, [] => True
  | offset, item :: rest =>
    item.Placed code offset rest ∧ Laid code (offset + item.size offset) rest

namespace Assembly

/-- The jumps to labels lie in the written code, apart from each other. -/
structure Settled (s : Assembly) : Prop where
  within : ∀ label stop, s.pending.lookup label = some stop → 5 ≤ stop ∧ stop ≤ s.code.size
  apart : ∀ label label' stop stop', s.pending.lookup label = some stop →
    s.pending.lookup label' = some stop' → label ≠ label' → stop + 4 ≤ stop' ∨ stop' + 4 ≤ stop

theorem settled_start (code : Arena) : (start code).Settled :=
  ⟨by simp [start], by simp [start]⟩

/-! ### One step -/

variable {s : Assembly} {item : Item}

theorem pending_step (s : Assembly) (item : Item) :
    (s.step item).pending =
      match item.jumpLabel? with
      | some label => (label, (s.step item).code.size) :: s.pending
      | none => s.pending := by
  obtain ⟨code, pending, exits, entry⟩ := s
  cases item with
  | bind label => simp only [step, Item.jumpLabel?]; split <;> rfl
  | _ => rfl

theorem entry_step (s : Assembly) (item : Item) (rest : List Item) :
    Layout.entry (s.step item).entry (s.code.size + item.size s.code.size) rest =
      Layout.entry s.entry s.code.size (item :: rest) := by
  obtain ⟨code, pending, exits, entry⟩ := s
  cases item with
  | bind label => simp only [step, Layout.entry]; split <;> rfl
  | _ => rfl

theorem exits_step (s : Assembly) (item : Item) (rest : List Item) :
    (s.step item).exits ++
        ((Layout.exits (s.step item).entry (s.code.size + item.size s.code.size) rest).map
          (·.1)).toArray =
      s.exits ++ ((Layout.exits s.entry s.code.size (item :: rest)).map (·.1)).toArray := by
  obtain ⟨code, pending, exits, entry⟩ := s
  cases item with
  | bind label => simp only [step, Layout.exits]; split <;> rfl
  | leave target destination linked =>
    apply Array.ext'
    simp [step, Layout.exits, Item.size]
  | _ => rfl

/-- A step that binds no label and drops nothing appends the bytes of its item. -/
theorem code_step_of_clean (hbind : item.bindLabel? = none)
    (h : (s.step item).code.overflowed = false) :
    (s.step item).code = s.code.append (item.bytes s.entry s.code.size) ∧
      s.code.overflowed = false := by
  obtain ⟨code, pending, exits, entry⟩ := s
  cases item with
  | instruction i => exact Arena.write_eq_append h
  | jump label => exact Arena.emit_eq_append h
  | jumpIf c label => exact Arena.emit_eq_append h
  | bind label => simp [Item.bindLabel?] at hbind
  | jumpTo target => exact Arena.jumpTo_eq_append h
  | jumpIfTo c target => exact Arena.jumpIfTo_eq_append h
  | leave target destination linked =>
    cases destination <;> exact Arena.jumpTo_eq_append h
  | entry => exact ⟨(Arena.append_nil code).symm, h⟩
  | align alignment => exact Arena.align_eq_append h

theorem size_step_of_clean (h : (s.step item).code.overflowed = false) :
    (s.step item).code.size = s.code.size + item.size s.code.size := by
  cases hbind : item.bindLabel? with
  | none => rw [(code_step_of_clean hbind h).1, Arena.size_append, Item.length_bytes]
  | some label =>
    rw [Item.eq_bind_of_bindLabel? hbind, code_step_bind]
    split
    · exact Arena.size_bind _ _
    · rfl

theorem size_foldl_of_clean {items : List Item}
    (h : (items.foldl step s).code.overflowed = false) :
    (items.foldl step s).code.size = Layout.stop s.code.size items := by
  induction items generalizing s with
  | nil => rfl
  | cons item rest ih =>
    rw [List.foldl_cons, ih h, size_step_of_clean ((extends_foldl _ rest).clean h)]
    rfl

/-- A step keeps jumps to labels apart, if it begins no second jump to a label. -/
theorem Settled.step (hs : s.Settled)
    (hfresh : ∀ label ∈ item.jumpLabel?, s.pending.lookup label = none)
    (hsize : (s.step item).code.size = s.code.size + item.size s.code.size) :
    (s.step item).Settled := by
  have hpending := pending_step s item
  cases hlabel : item.jumpLabel? with
  | none =>
    simp only [hlabel] at hpending
    constructor
    · intro label stop h
      have := hs.within label stop (hpending ▸ h)
      omega
    · intro label label' stop stop' h h'
      exact hs.apart label label' stop stop' (hpending ▸ h) (hpending ▸ h')
  | some new =>
    rw [hlabel] at hpending
    -- The distance of a new jump lies at the end of the code, behind those of all others.
    have hfive : 5 ≤ item.size s.code.size := by
      cases item <;> simp_all [Item.jumpLabel?, Item.size]
    have hlookup : ∀ label stop, (s.step item).pending.lookup label = some stop →
        (label = new ∧ stop = (s.step item).code.size) ∨
          (label ≠ new ∧ s.pending.lookup label = some stop) := by
      intro label stop h
      rw [hpending, List.lookup_cons] at h
      by_cases heq : label = new
      · simp only [heq, beq_self_eq_true, Option.some.injEq] at h
        exact .inl ⟨heq, h.symm⟩
      · rw [beq_false_of_ne heq] at h
        exact .inr ⟨heq, h⟩
    refine ⟨fun label stop h => ?_, fun label label' stop stop' h h' hne => ?_⟩
    · rcases hlookup label stop h with ⟨-, rfl⟩ | ⟨-, h⟩
      · omega
      · have := hs.within label stop h; omega
    · rcases hlookup label stop h with ⟨rfl, rfl⟩ | ⟨-, h⟩ <;>
        rcases hlookup label' stop' h' with ⟨rfl, rfl⟩ | ⟨-, h'⟩
      · exact absurd rfl hne
      · have := hs.within label' stop' h'; omega
      · have := hs.within label stop h; omega
      · exact hs.apart label label' stop stop' h h' hne

/-! ### Whole assemblies -/

/-- `r` is `s` with symbolic code laid out behind it. -/
structure LaidOut (s : Assembly) (items : List Item) (r : Assembly) : Prop where
  clean : s.code.overflowed = false
  size : r.code.size = Layout.stop s.code.size items
  laid : Laid r.code.written s.code.size items
  /-- Bytes written before stay, distances of jumps to the labels bound here apart. -/
  frame : ∀ i < s.code.size,
    (∀ label ∈ bindLabels items, ∀ stop, s.pending.lookup label = some stop →
      i + 4 < stop ∨ stop ≤ i) → r.code.written[i]? = s.code.written[i]?
  /-- Jumps written before lead to the labels bound here. -/
  bound : ∀ label stop target, s.pending.lookup label = some stop →
    Layout.labelOffset? label s.code.size items = some target →
      HasBytes r.code.written (stop - 4) (Word.bytes (jumpDistance target stop))
  exits : r.exits =
    s.exits ++ ((Layout.exits s.entry s.code.size items).map (·.1)).toArray
  /-- Every exit leads where it is to lead at first. -/
  leads : ∀ e ∈ Layout.exits s.entry s.code.size items, HasBytes r.code.written e.1.offset
    (HostInstruction.jump (jumpDistance e.2 (e.1.offset + 5))).encode
  entry : r.entry = Layout.entry s.entry s.code.size items

variable {rest : List Item} {r : Assembly}

/-- Bytes that a step appends stay, the distance of a jump to a label apart. -/
theorem LaidOut.hasBytes_step (h : (s.step item).LaidOut rest r) (hs : s.Settled)
    (hcode : (s.step item).code = s.code.append (item.bytes s.entry s.code.size))
    {bytes : List UInt8} (more : List UInt8) (hbytes : item.bytes s.entry s.code.size = bytes ++ more)
    (hmore : item.jumpLabel? = none ∨ more.length = 4) :
    HasBytes r.code.written s.code.size bytes := by
  have hsize : (s.step item).code.size = s.code.size + (bytes ++ more).length := by
    rw [hcode, Arena.size_append, hbytes]
  have happended := hasBytes_append s.code (bytes ++ more)
  rw [← hbytes, ← hcode, hbytes] at happended
  rw [List.length_append] at hsize
  refine (HasBytes.append_iff.1 happended).1.of_eq fun i hlow hhigh => ?_
  -- The rest writes behind these bytes, but for the distances that are still open.
  refine h.frame i (by omega) fun label _ stop hlookup => ?_
  rw [pending_step] at hlookup
  cases hlabel : item.jumpLabel? with
  | none =>
    rw [hlabel] at hlookup
    have := hs.within label stop hlookup
    omega
  | some new =>
    rw [hlabel] at hlookup hmore
    rw [List.lookup_cons] at hlookup
    split at hlookup
    · cases hlookup
      have : more.length = 4 := by simpa using hmore
      omega
    · have := hs.within label stop hlookup
      omega

/-- The bytes of a jump to a label, once the label is bound. -/
theorem LaidOut.placed_step (h : (s.step item).LaidOut rest r) (hs : s.Settled)
    (hcode : (s.step item).code = s.code.append (item.bytes s.entry s.code.size)) :
    item.Placed r.code.written s.code.size rest := by
  have hplain (hlabel : item.jumpLabel? = none) :
      HasBytes r.code.written s.code.size (item.bytes s.entry s.code.size) :=
    h.hasBytes_step hs hcode [] (List.append_nil _).symm (.inl hlabel)
  have hsize : (s.step item).code.size = s.code.size + item.size s.code.size := by
    rw [hcode, Arena.size_append, Item.length_bytes]
  have hpending := pending_step s item
  -- All bytes of an item stay but for the distance of a jump, which is written when its label is
  -- bound.
  cases item with
  | instruction i => exact hplain rfl
  | jumpTo target => exact hplain rfl
  | jumpIfTo c target => exact hplain rfl
  | leave target destination linked => exact ⟨_, hplain rfl⟩
  | bind label => trivial
  | entry => trivial
  | align alignment => trivial
  | jump label =>
    intro target htarget
    have hopcode : HasBytes r.code.written s.code.size [0xE9] :=
      h.hasBytes_step hs hcode (Word.bytes 0) rfl (.inr rfl)
    rw [Item.size] at hsize
    have hdistance := h.bound label (s.code.size + 5) target
      (by rw [hpending]; simp [Item.jumpLabel?, hsize]) (hsize ▸ htarget)
    exact hasBytes_jump.2 ⟨hopcode, hdistance⟩
  | jumpIf c label =>
    intro target htarget
    have hopcode : HasBytes r.code.written s.code.size [0x0F, 0x80 ||| c.code] :=
      h.hasBytes_step hs hcode (Word.bytes 0) rfl (.inr rfl)
    rw [Item.size] at hsize
    have hdistance := h.bound label (s.code.size + 6) target
      (by rw [hpending]; simp [Item.jumpLabel?, hsize]) (hsize ▸ htarget)
    exact hasBytes_jumpIf.2 ⟨hopcode, hdistance⟩

/-- Laying out an item that binds no label and then the rest lays out both. -/
theorem LaidOut.cons (h : (s.step item).LaidOut rest r) (hs : s.Settled)
    (hbind : item.bindLabel? = none)
    (hfresh : ∀ label ∈ item.jumpLabel?, s.pending.lookup label = none) :
    s.LaidOut (item :: rest) r := by
  obtain ⟨hcode, hclean⟩ := code_step_of_clean hbind h.clean
  have hsize : (s.step item).code.size = s.code.size + item.size s.code.size := by
    rw [hcode, Arena.size_append, Item.length_bytes]
  have hpending := pending_step s item
  refine
    { clean := hclean
      size := by rw [h.size, hsize]; rfl
      laid := ⟨h.placed_step hs hcode, hsize ▸ h.laid⟩
      frame := fun i hi hfield => ?_
      bound := fun label stop target hlookup htarget => ?_
      exits := by rw [h.exits, hsize, exits_step]
      leads := ?_
      entry := by rw [h.entry, hsize, entry_step] }
  · rw [bindLabels_cons hbind] at hfield
    rw [h.frame i (by omega), hcode, Arena.getElem?_append, if_pos hi]
    intro label hlabel stop hlookup
    rw [hpending] at hlookup
    -- A jump that is written now is behind the old code, and so is the distance that is still open.
    cases hjump : item.jumpLabel? with
    | none => exact hfield label hlabel stop (by simpa [hjump] using hlookup)
    | some new =>
      simp only [hjump, List.lookup_cons] at hlookup
      split at hlookup
      · have : 5 ≤ item.size s.code.size := by
          cases item <;> simp_all [Item.jumpLabel?, Item.size]
        cases hlookup
        omega
      · exact hfield label hlabel stop hlookup
  · refine h.bound label stop target ?_ (by rw [hsize, ← Layout.labelOffset?_cons hbind]; exact htarget)
    rw [hpending]
    cases hjump : item.jumpLabel? with
    | none => exact hlookup
    | some new =>
      have hnew := hfresh new (by rw [hjump]; rfl)
      have hne : label ≠ new := fun heq => by rw [heq, hnew] at hlookup; cases hlookup
      simpa only [List.lookup_cons, beq_false_of_ne hne] using hlookup
  · intro e he
    have hrest := h.leads e
    rw [hsize] at hrest
    -- Only leaving code has an exit.
    obtain ⟨code, pending, exits, entry⟩ := s
    cases item with
    | leave target destination linked =>
      rcases List.mem_cons.1 he with rfl | he
      · exact h.hasBytes_step hs hcode [] (List.append_nil _).symm (.inl rfl)
      · exact hrest he
    | bind label => simp [Item.bindLabel?] at hbind
    | _ => exact hrest he

/-- Other jumps to labels are not touched by binding this one. -/
theorem written_step_bind {label i : Nat} (hs : s.Settled) (hsize : s.code.size < UInt64.size)
    (hi : ∀ stop, s.pending.lookup label = some stop → i + 4 < stop ∨ stop ≤ i) :
    (s.step (.bind label)).code.written[i]? = s.code.written[i]? := by
  rw [code_step_bind]
  cases hlookup : s.pending.lookup label with
  | none => rfl
  | some stop =>
    have := hs.within label stop hlookup
    rw [Arena.written_bind (by omega) (by omega) hsize, Arena.getElem?_overwrite, if_neg]
    have := hi stop hlookup
    rw [Arena.length_wordBytes]
    omega

/-- A jump is sent to its label when that is bound, and no later binding touches it. -/
theorem LaidOut.hasBytes_bound {label stop : Nat} (h : (s.step (.bind label)).LaidOut rest r)
    (hs : s.Settled) (hsize : s.code.size < UInt64.size) (honce : label ∉ bindLabels rest)
    (hlookup : s.pending.lookup label = some stop) :
    HasBytes r.code.written (stop - 4) (Word.bytes (jumpDistance s.code.size stop)) := by
  have hpending : (s.step (.bind label)).pending = s.pending := pending_step s _
  have hkeep : (s.step (.bind label)).code.size = s.code.size := by
    rw [code_step_bind]
    split <;> simp
  have hwithin := hs.within label stop hlookup
  have hbound : HasBytes (s.step (.bind label)).code.written (stop - 4)
      (Word.bytes (jumpDistance s.code.size stop)) := by
    rw [code_step_bind, hlookup]
    simp only [Arena.written_bind (by omega : 4 ≤ stop) hwithin.2 hsize]
    have hle : stop ≤ s.code.written.size := hwithin.2
    exact hasBytes_overwrite (by rw [Arena.length_wordBytes]; omega)
  refine hbound.of_eq fun i hlow hhigh => ?_
  rw [Arena.length_wordBytes] at hhigh
  refine h.frame i (by omega) fun label' hlabel' stop' hlookup' => ?_
  have hne : label ≠ label' := fun heq => honce (heq ▸ hlabel')
  have := hs.apart label label' stop stop' hlookup (hpending ▸ hlookup') hne
  have := hs.within label' stop' (hpending ▸ hlookup')
  omega

/-- Binding a label and then laying out the rest lays out both. -/
theorem LaidOut.cons_bind {label : Nat} (h : (s.step (.bind label)).LaidOut rest r)
    (hs : s.Settled) (hsize : s.code.size < UInt64.size) (honce : label ∉ bindLabels rest) :
    s.LaidOut (.bind label :: rest) r := by
  -- Binding adds no byte: it overwrites the distances of the jumps that wait for the label.
  have hpending : (s.step (.bind label)).pending = s.pending := pending_step s _
  have hcode := code_step_bind s label
  have hkeep : (s.step (.bind label)).code.size = s.code.size ∧
      (s.step (.bind label)).code.overflowed = s.code.overflowed := by
    rw [hcode]
    split <;> simp
  refine
    { clean := hkeep.2 ▸ h.clean
      size := by rw [h.size, hkeep.1]; rfl
      laid := ⟨trivial, hkeep.1 ▸ h.laid⟩
      frame := fun i hi hfield => ?_
      bound := fun label' stop target hlookup htarget => ?_
      exits := by rw [h.exits, hkeep.1]; exact exits_step s (.bind label) rest
      leads := ?_
      entry := by rw [h.entry, hkeep.1]; exact entry_step s (.bind label) rest }
  · rw [bindLabels_bind] at hfield
    rw [h.frame i (hkeep.1 ▸ hi), written_step_bind hs hsize (hfield label (by simp))]
    intro label' hlabel' stop hlookup
    exact hfield label' (by simp [hlabel']) stop (hpending ▸ hlookup)
  · rw [Layout.labelOffset?_bind] at htarget
    -- For this label the offset is known now; any other one is bound in the rest.
    by_cases heq : label = label'
    · subst heq
      rw [if_pos rfl, Option.some.injEq] at htarget
      subst htarget
      exact h.hasBytes_bound hs hsize honce hlookup
    · rw [if_neg heq] at htarget
      exact h.bound label' stop target (hpending ▸ hlookup) (by rw [hkeep.1]; exact htarget)
  · intro e he
    have hentry : (s.step (.bind label)).entry = s.entry := by
      obtain ⟨code, pending, exits, entry⟩ := s
      simp only [Assembly.step]
      split <;> rfl
    refine h.leads e ?_
    rw [hkeep.1, hentry]
    exact he

/-- Symbolic code with unique labels is laid out by assembling it, unless something is dropped. -/
theorem laidOut_foldl {items : List Item} (hs : s.Settled) (hunique : UniqueLabels items)
    (hfresh : ∀ label ∈ jumpLabels items, s.pending.lookup label = none)
    (hclean : (items.foldl step s).code.overflowed = false)
    (hsize : Layout.stop s.code.size items < UInt64.size) :
    s.LaidOut items (items.foldl step s) := by
  -- The induction is on the items behind the state: what they append leaves its bytes as they are.
  induction items generalizing s with
  | nil =>
    exact ⟨hclean, rfl, trivial, fun _ _ _ => rfl, by simp [Layout.labelOffset?],
      by simp [Layout.exits], by simp [Layout.exits], rfl⟩
  | cons item rest ih =>
    have hstep : (s.step item).code.overflowed = false := (extends_foldl _ rest).clean hclean
    have hstop := size_step_of_clean hstep
    have hjumps := hunique.jumps
    rw [jumpLabels_cons] at hfresh hjumps
    have hitem : ∀ label ∈ item.jumpLabel?, s.pending.lookup label = none := fun label hlabel =>
      hfresh label (List.mem_append_left _ (by simpa using hlabel))
    have hlaid : (s.step item).LaidOut rest (rest.foldl step (s.step item)) := by
      refine ih (hs.step hitem hstop) ⟨(List.nodup_append.1 hjumps).2.1, ?_⟩ ?_ hclean ?_
      · have hbinds := hunique.binds
        rw [bindLabels, List.filterMap_cons] at hbinds
        split at hbinds
        · exact hbinds
        · exact (List.nodup_cons.1 hbinds).2
      · intro label hlabel
        have hold := hfresh label (List.mem_append_right _ hlabel)
        rw [pending_step]
        cases hjump : item.jumpLabel? with
        | none => exact hold
        | some new =>
          have hne : label ≠ new := fun heq =>
            (List.nodup_append.1 hjumps).2.2 new (by simp [hjump]) label hlabel heq.symm
          simpa only [List.lookup_cons, beq_false_of_ne hne] using hold
      · rw [hstop]
        exact hsize
    cases hbind : item.bindLabel? with
    | none => exact hlaid.cons hs hbind hitem
    | some label =>
      obtain rfl := Item.eq_bind_of_bindLabel? hbind
      have hbinds := hunique.binds
      rw [bindLabels_bind] at hbinds
      exact hlaid.cons_bind hs (Nat.lt_of_le_of_lt (Layout.le_stop _ _) hsize)
        (List.nodup_cons.1 hbinds).1

end Assembly

/-- Assembling symbolic code with unique labels lays it out behind the older code, unless something
is dropped. -/
theorem Arena.laidOut_assemble {a : Arena} {items : Array Item} (hunique : UniqueLabels items.toList)
    (hclean : (a.assemble items).code.overflowed = false) (hroom : a.size ≤ a.limit)
    (h64 : a.limit < UInt64.size) :
    (Assembly.start a).LaidOut items.toList (a.assemble items) := by
  have hextends := Assembly.extends_assemble a items
  rw [Assembly.assemble_eq_foldl] at hclean hextends ⊢
  refine Assembly.laidOut_foldl (Assembly.settled_start a) hunique (fun _ _ => rfl) hclean ?_
  rw [← Assembly.size_foldl_of_clean hclean]
  exact Nat.lt_of_le_of_lt (hextends.within hroom) (hextends.limit ▸ h64)

end Recompiler
