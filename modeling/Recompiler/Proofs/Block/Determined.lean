import Recompiler.Proofs.Block.Relocation
import Recompiler.Proofs.Block.Whole
import Recompiler.Proofs.Session.Events

/-!
# What a block does is determined

The way through symbolic code is determined by the code and the machine, and where exits lead makes no
difference to it before control comes to one. So a block does one thing to each guest, wherever its
code lies and whatever blocks it is linked to.

* `Point.aimless`, `Point.Leads.aimless`: the way through code up to where its exits lead.
* `Point.Leads.linear`: of two points on the way one comes after the other.
* `Point.Leads.echo`: the way through code whatever the events.
* `Way.eq_of_leads`: control comes to one way out only.
* `Departure.Follows`: the departure that code determines for a guest.
* `Departure.Follows.unique`, `Departure.Follows.echo`: there is one, whatever the events before.
* `Lower.bodyCode`: the code that a block is lowered to, up to where its exits lead.
* `Lower.exists_follows`: the departure is where the instructions of the block lead.
-/

namespace Recompiler

variable {β : Type}

/-! ## Exits that lead nowhere -/

@[simp] theorem Item.aimless_bind_iff {item : Item} {label : Nat} :
    item.aimless = .bind label ↔ item = .bind label := by
  cases item <;> simp [aimless]

theorem Item.advance?_aimless [Bus β] (m : HostMachine β) (label? : Option Nat) (item : Item) :
    item.aimless.advance? m label? = item.advance? m label? := by
  cases label? with
  | some label => simp [advance?]
  | none => cases item <;> rfl

namespace Point

/-- The point, but for where the exits ahead lead. -/
def aimless (p : Point β) : Point β :=
  { p with items := p.items.map Item.aimless }

variable {p q r : Point β} {cs cs' : List (Call β)} {m n : HostMachine β}

theorem valid_aimless : p.aimless.Valid ↔ p.Valid := by
  obtain ⟨label?, items, m⟩ := p
  cases label? <;> cases items with
  | nil => exact .rfl
  | cons item rest => cases item <;> exact .rfl

theorem call?_aimless : p.aimless.call? = p.call? := by
  obtain ⟨label?, items, m⟩ := p
  cases label? <;> cases items with
  | nil => rfl
  | cons item rest => cases item <;> rfl

variable [Bus β]

theorem next?_aimless : p.aimless.next? = p.next?.map aimless := by
  obtain ⟨label?, items, m⟩ := p
  cases items with
  | nil => cases label? <;> rfl
  | cons item rest =>
    change next? ⟨label?, item.aimless :: rest.map Item.aimless, m⟩ = _
    rw [next?_cons, next?_cons, Item.advance?_aimless, Option.map_map]
    rfl

namespace Leads

/-- Where exits lead makes no difference to the way through code. -/
theorem aimless (h : p.Leads cs q) : p.aimless.Leads cs q.aimless := by
  induction h with
  | refl p => exact .refl _
  | @step p q r cs hvalid hnext _ ih =>
    have hstep : p.aimless.next? = some q.aimless := by rw [next?_aimless, hnext]; rfl
    rw [← call?_aimless]
    exact .step (valid_aimless.2 hvalid) hstep ih

/-- Of two points on the way through code one comes after the other. -/
theorem linear (h : p.Leads cs q) (h' : p.Leads cs' r) :
    (∃ more, q.Leads more r ∧ cs' = cs ++ more) ∨ ∃ more, r.Leads more q ∧ cs = cs' ++ more := by
  induction h generalizing cs' with
  | refl p => exact .inl ⟨cs', h', rfl⟩
  | @step p p₁ q cs hvalid hnext hrest ih =>
    cases h' with
    | refl => exact .inr ⟨_, .step hvalid hnext hrest, rfl⟩
    | @step _ p₂ _ cs₂ _ hnext' hrest' =>
      obtain rfl : p₁ = p₂ := Option.some.inj (hnext.symm.trans hnext')
      rcases ih hrest' with ⟨more, hmore, rfl⟩ | ⟨more, hmore, rfl⟩
      · exact .inl ⟨more, hmore, (List.append_assoc ..).symm⟩
      · exact .inr ⟨more, hmore, (List.append_assoc ..).symm⟩

end Leads

/-- The points differ in the events of the guest at most. -/
structure Echoes (p q : Point β) : Prop where
  label? : q.label? = p.label?
  items : q.items = p.items
  machine : p.machine.silent = q.machine.silent

theorem Echoes.next? (h : p.Echoes q) (hnext : p.next? = some r) :
    ∃ r', q.next? = some r' ∧ r.Echoes r' := by
  obtain ⟨label?', items', m⟩ := p
  obtain ⟨label?, items, n⟩ := q
  obtain ⟨hlabel, hitems, hsilent⟩ := h
  dsimp only at hlabel hitems hsilent
  subst hlabel hitems
  have hstraight := HostMachine.silent_executeStraight hsilent
  obtain ⟨e, rfl, henv⟩ := HostMachine.exists_env hsilent
  cases items with
  | nil => cases label? <;> cases hnext
  | cons item rest =>
    cases label? with
    | some label =>
      cases hnext
      exact ⟨_, rfl, rfl, rfl, hsilent⟩
    | none =>
      -- Only instructions change the machine, and they do not look at the events.
      cases item with
      | instruction i =>
        obtain ⟨m', hm', rfl⟩ := Option.map_eq_some_iff.1 hnext
        have hexecute := hstraight i
        rw [hm'] at hexecute
        obtain ⟨n', hn', hsilent'⟩ := Option.map_eq_some_iff.1 hexecute.symm
        refine ⟨⟨none, rest, n'⟩, ?_, rfl, rfl, hsilent'.symm⟩
        rw [Point.next?, hn']
        rfl
      | jumpIfTo c target =>
        change (if m.flags.holds c then none else _) = _ at hnext
        split at hnext
        · cases hnext
        · next hflags =>
          cases hnext
          exact ⟨⟨none, rest, _⟩, if_neg hflags, rfl, rfl, hsilent⟩
      | jumpTo | leave | align => cases hnext
      | _ =>
        cases hnext
        exact ⟨_, rfl, rfl, rfl, hsilent⟩

omit [Bus β] in
theorem Echoes.valid (h : p.Echoes q) (hvalid : p.Valid) : q.Valid := by
  obtain ⟨label?', items', m⟩ := p
  obtain ⟨label?, items, n⟩ := q
  obtain ⟨hlabel, hitems, -⟩ := h
  dsimp only at hlabel hitems
  subst hlabel hitems
  cases label? <;> cases items with
  | nil => exact hvalid
  | cons item rest => cases item <;> exact hvalid

/-- The way through code does not depend on the events. -/
theorem Leads.echo (h : p.Leads cs r) (hq : p.Echoes q) :
    ∃ cs' r', q.Leads cs' r' ∧ r.Echoes r' := by
  induction h generalizing q with
  | refl p => exact ⟨[], q, .refl q, hq⟩
  | step hvalid hnext _ ih =>
    obtain ⟨q', hnext', hq'⟩ := hq.next? hnext
    obtain ⟨cs', r', hrest, hr'⟩ := ih hq'
    exact ⟨_, r', .step (hq.valid hvalid) hnext' hrest, hr'⟩

end Point

/-! ## One way out -/

namespace Way

/-- The code of a way out, but for where it leads. -/
def aimless : Way → List Item
  | exit target _ =>
    [.jumpIfTo .less Stubs.standard.outerLoop, .leave target (.offset 0) false]
  | dispatch => [.jumpTo Stubs.standard.dispatcher]
  | checked => [.jumpTo Stubs.standard.dispatcherCheckCoreState]
  | refused => [.jumpTo Stubs.standard.hardFault]

theorem map_aimless_items {s : Surroundings} (hs : s.stubs = Stubs.standard) (w : Way) :
    (w.items s).map Item.aimless = w.aimless := by
  cases w with
  | exit target spent => simp [items, aimless, Item.aimless, Surroundings.exitItem, hs]
  | _ => simp [items, aimless, Item.aimless, hs]

variable {w w' : Way} {rest rest' : List Item} {m : HostMachine β}

/-- The code and the flags tell the way out. -/
theorem eq_of_aimless (h : w.aimless ++ rest = w'.aimless ++ rest') (hm : w.Tells m)
    (hm' : w'.Tells m) : w = w' := by
  cases w with
  | exit target spent =>
    cases w' with
    | exit target' spent' =>
      obtain rfl : target = target' := by
        have hleave := (List.cons.inj (List.cons.inj h).2).1
        exact (Item.leave.inj hleave).1
      obtain rfl : spent = spent' := Eq.trans (Eq.symm hm) hm'
      rfl
    | _ => cases (List.cons.inj h).1
  | dispatch | checked | refused =>
    cases w' with
    | exit target' spent' => cases (List.cons.inj h).1
    | dispatch | checked | refused =>
      first
      | rfl
      | exact absurd (Item.jumpTo.inj (List.cons.inj h).1) (by decide)

variable [Bus β] {n : HostMachine β} {cs : List (Call β)}

/-- From a way out control comes to no other. -/
theorem leads_aimless (h : Point.Leads ⟨none, w.aimless ++ rest, m⟩ cs
    ⟨none, w'.aimless ++ rest', n⟩) :
    cs = [] ∧ m = n ∧ w.aimless ++ rest = w'.aimless ++ rest' := by
  generalize hp : (⟨none, w.aimless ++ rest, m⟩ : Point β) = p at h
  generalize hq : (⟨none, w'.aimless ++ rest', n⟩ : Point β) = q at h
  cases h with
  | refl =>
    have heq := Point.mk.inj (hp.trans hq.symm)
    exact ⟨rfl, heq.2.2, heq.2.1⟩
  | @step _ p₁ _ cs _ hnext hrest =>
    subst hp hq
    cases w with
    | dispatch | checked | refused => cases hnext
    | exit target spent =>
      -- Behind the comparison stands the exit, which leads out of the code.
      have hbehind : p₁ = ⟨none, .leave target (.offset 0) false :: rest, m⟩ := by
        change (if m.flags.holds .less then none else _) = some p₁ at hnext
        split at hnext
        · cases hnext
        · exact (Option.some.inj hnext).symm
      subst hbehind
      generalize hq : (⟨none, w'.aimless ++ rest', n⟩ : Point β) = q at hrest
      cases hrest with
      | refl =>
        have hitems := (Point.mk.inj hq).2.1
        cases w' <;> cases (List.cons.inj hitems).1
      | step _ hnext' _ => cases hnext'

/-- Two ways out that control comes to are one. -/
theorem eq_of_leads {p : Point β} {cs' : List (Call β)}
    (h : p.Leads cs ⟨none, w.aimless ++ rest, m⟩) (h' : p.Leads cs' ⟨none, w'.aimless ++ rest', n⟩) :
    cs = cs' ∧ m = n ∧ w.aimless ++ rest = w'.aimless ++ rest' := by
  rcases h.linear h' with ⟨more, hmore, rfl⟩ | ⟨more, hmore, rfl⟩
  · obtain ⟨rfl, hmachine, hitems⟩ := leads_aimless hmore
    exact ⟨(List.append_nil _).symm, hmachine, hitems⟩
  · obtain ⟨rfl, hmachine, hitems⟩ := leads_aimless hmore
    exact ⟨List.append_nil _, hmachine.symm, hitems.symm⟩

end Way

/-! ## One departure -/

namespace Departure

variable [Bus β] {regions : List FastRegion} {code : List Item} {e : Environment β}
  {d d' : Departure β}

/-- Code takes every machine that enters it with the guest `e` to the way out, with the guest that is
left behind and the calls before. -/
def Follows (regions : List FastRegion) (code : List Item) (e : Environment β)
    (d : Departure β) : Prop :=
  ∀ m, Lower.Enters regions e m → ∃ (rest : List Item) (n : HostMachine β),
    Point.Leads ⟨none, code, m⟩ d.calls ⟨none, d.way.aimless ++ rest, n⟩ ∧ d.Leaves n

variable {e' : Environment β}

/-- Code does one thing to each guest. -/
theorem Follows.unique (hzero : e.state.get 0 = 0) (hbacked : Bus.Backed regions e.bus)
    (h : d.Follows regions code e) (h' : d'.Follows regions code e) : d = d' := by
  obtain ⟨m, hm⟩ := Lower.exists_enters (s := ⟨.standard, regions, .standard, fun _ => none⟩)
    hzero hbacked
  obtain ⟨rest, n, hleads, hn⟩ := h m hm
  obtain ⟨rest', n', hleads', hn'⟩ := h' m hm
  obtain ⟨hcalls, rfl, hitems⟩ := Way.eq_of_leads hleads hleads'
  obtain ⟨calls, way, env⟩ := d
  obtain ⟨calls', way', env'⟩ := d'
  obtain rfl : calls = calls' := hcalls
  obtain rfl : env = env' := hn.env.symm.trans hn'.env
  obtain rfl : way = way' := Way.eq_of_aimless hitems hn.tells hn'.tells
  rfl

/-- What code does to a guest does not depend on the events before. -/
theorem Follows.echo (hsame : e.silent = e'.silent) (hzero : e.state.get 0 = 0)
    (hbacked : Bus.Backed regions e.bus) (h : d.Follows regions code e)
    (h' : d'.Follows regions code e') : d.way = d'.way ∧ d.env.silent = d'.env.silent := by
  obtain ⟨m, hm⟩ := Lower.exists_enters (s := ⟨.standard, regions, .standard, fun _ => none⟩)
    hzero hbacked
  obtain ⟨rest, n, hleads, hn⟩ := h m hm
  -- The same machine with the other events.
  obtain ⟨m', hm', hsilent⟩ : ∃ m', Lower.Enters regions e' m' ∧ m.silent = m'.silent := by
    obtain ⟨events, rfl⟩ := Environment.exists_events hsame
    exact ⟨{ m with env := { e with events := events } },
      ⟨rfl, ⟨hm.roles.context, hm.roles.main⟩, hzero, hbacked⟩,
      HostMachine.silent_congr (congrArg Environment.silent hm.env) m⟩
  obtain ⟨cs, ⟨label?, items, p⟩, hecho, hlabel, hitems, hp⟩ :=
    hleads.echo (q := ⟨none, code, m'⟩) ⟨rfl, rfl, hsilent⟩
  dsimp only at hlabel hitems hp
  subst hlabel hitems
  obtain ⟨rest', n', hleads', hn'⟩ := h' m' hm'
  obtain ⟨-, rfl, hitems⟩ := Way.eq_of_leads hecho hleads'
  obtain ⟨f, rfl, henv⟩ := HostMachine.exists_env hp
  refine ⟨Way.eq_of_aimless hitems hn.tells ?_, ?_⟩
  · have htells := hn'.tells
    generalize d'.way = way at htells ⊢
    cases way <;> exact htells
  · rw [← hn.env, ← hn'.env]
    exact henv

end Departure

/-! ## One code -/

namespace Lower

variable [Bus β] {o o' : Options} {regions : List FastRegion} {bus bus' : β} {start : UInt32}

/-- What the block at an address is lowered to, behind its entry and but for where its exits lead. -/
def bodyCode (o : Options) (regions : List FastRegion) (bus : β) (start : UInt32) : List Item :=
  let lowered := (exec (block start) ⟨o, regions, Stubs.standard, fun _ => none⟩
    (.initial bus start)).2
  (lowered.code.toList.map Item.aimless).drop (entryItems Stubs.standard start).length

/-- What a block is lowered to depends neither on the room for blocks nor on the links between them. -/
theorem bodyCode_eq (ho : o.Akin o') {q : β → β → Prop} (hq : Bus.Matched q) (hbus : q bus bus') :
    bodyCode o' regions bus' start = bodyCode o regions bus start := by
  have hkin : (⟨o, regions, .standard, fun _ => none⟩ : Surroundings).Kin
      ⟨o', regions, .standard, fun _ => none⟩ := ⟨ho, rfl, rfl⟩
  obtain ⟨-, hresembles, -⟩ := block_elsewhere hkin hq hbus start
  rw [bodyCode, bodyCode, hresembles.code]

/-- Nor does it depend on the blocks that are there. -/
theorem bodyCode_eq_of_exec {entryAt : UInt32 → Option Destination} {u : Lowering β}
    {more : List Item}
    (hexec : exec (block start) ⟨o, regions, Stubs.standard, entryAt⟩ (.initial bus start) =
      (.ok (), u)) (hcode : u.code.toList = entryItems Stubs.standard start ++ more) :
    bodyCode o regions bus start = more.map Item.aimless := by
  have hkin : (⟨o, regions, .standard, entryAt⟩ : Surroundings).Kin
      ⟨o, regions, .standard, fun _ => none⟩ := ⟨.refl o, rfl, rfl⟩
  obtain ⟨-, hresembles, -⟩ := block_elsewhere hkin Bus.matched_eq (rfl : bus = bus) start
  rw [bodyCode, hresembles.code, hexec, hcode, List.map_append]
  exact List.drop_left

/-- A block that is lowered determines a departure for each guest, which is where its instructions
lead. -/
theorem exists_follows (haccepted : o.Accepted regions) {entryAt : UInt32 → Option Destination}
    {u : Lowering β}
    (hexec : exec (block start) ⟨o, regions, Stubs.standard, entryAt⟩ (.initial bus start) =
      (.ok (), u)) :
    ∃ (more : List Item) (n : Nat),
      u.code.toList = entryItems Stubs.standard start ++ more ++ [.align blockAlignment] ∧
      n ≤ o.maxBlockInstructions + 1 ∧ u.instructions = UInt32.ofNat n ∧
      ∀ e, e.state.get 0 = 0 → Bus.Backed regions e.bus →
        ∃ d : Departure β, Course o regions (Bus.Words bus start n) o.maxBlockInstructions start 0 e d ∧
          d.Follows regions (bodyCode o regions bus start) e ∧
          ∀ m, Enters regions e m → ∃ (rest : List Item) (n : HostMachine β),
            Point.Leads ⟨none, more, m⟩ d.calls
              ⟨none, d.way.items ⟨o, regions, Stubs.standard, entryAt⟩ ++ rest, n⟩ ∧
            d.Leaves n ∧ n.frame = m.frame := by
  obtain ⟨more, n, hcode, hn, hcount, hdeparts⟩ := departs_block haccepted hexec
  refine ⟨more, n, hcode, hn, hcount, fun e hzero hbacked => ?_⟩
  obtain ⟨d, hcourse, hleads⟩ := hdeparts e hzero hbacked
  refine ⟨d, hcourse, fun m hm => ?_, hleads⟩
  obtain ⟨rest, n, hway, hn, -⟩ := hleads m hm
  have haimless := (hway.extend [.align blockAlignment]).aimless
  rw [List.append_assoc] at hcode
  rw [bodyCode_eq_of_exec hexec hcode]
  refine ⟨(rest ++ [Item.align blockAlignment]).map Item.aimless, n, ?_, hn⟩
  have hsplit (more : List Item) :
      (d.way.items ⟨o, regions, Stubs.standard, entryAt⟩ ++ more).map Item.aimless =
        d.way.aimless ++ more.map Item.aimless := by
    rw [List.map_append, Way.map_aimless_items rfl]
  simp only [Point.aimless, List.append_assoc, hsplit] at haimless
  exact haimless

end Lower

end Recompiler
