import Recompiler.Proofs.Code.Emission
import Recompiler.Proofs.Code.Jumps

/-!
# Emitters

Code is written from front to back, so a jump forward is written before its target is known, and
some jumps are sent elsewhere long after they were written. Whatever is asked for in between, every
jump leads to the offset that it was sent to last.

* `Emission.jump?`: the jump that is appended, if it is one.
* `Emitter`, `Emitter.Request`: an arena with the jumps in it, and what is asked of it.
* `Emitter.sends?`: the jump that a request sends somewhere, and where.
* `Emitter.Sound`: every jump lies where it should; what every request keeps.
* `Emitter.run_resolves_jumps`: the jumps at the end of a run.
-/

namespace Recompiler

/-! ## Emitted jumps -/

/-- A constant offset is a positive displacement. -/
def FastAddress.Permitted : FastAddress → Prop
  | fixed offset => offset < 0x80000000
  | indexed _ | based .. => True

instance (addr : FastAddress) : Decidable addr.Permitted :=
  match addr with
  | .fixed _ => inferInstanceAs (Decidable (_ < _))
  | .indexed _ | .based .. => inferInstanceAs (Decidable True)

theorem FastAddress.exists_resolve (addr : FastAddress) (h : addr.Permitted) :
    ∃ place, addr.resolve = .ok place := by
  cases addr with
  | indexed index => exact ⟨_, rfl⟩
  | fixed offset => exact ⟨_, if_pos h⟩
  | based base index => exact ⟨_, rfl⟩

namespace Emission

/-- Nothing that is refused: a constant offset is a positive displacement, a call has as many
arguments as there are registers for them, there is something to align to, and a target lies inside
the code space. -/
def Permitted (capacity : Nat) : Emission → Prop
  | loadHost _ _ addr | storeHost _ addr _ => addr.Permitted
  | call _ args => args.length ≤ 4
  | align alignment => alignment ≠ 0
  | jumpTo target | jumpIfTo _ target => target ≤ capacity
  | _ => True

instance (capacity : Nat) (e : Emission) : Decidable (e.Permitted capacity) :=
  match e with
  | loadHost _ _ addr | storeHost _ addr _ => inferInstanceAs (Decidable addr.Permitted)
  | call .. => inferInstanceAs (Decidable (_ ≤ _))
  | align _ => inferInstanceAs (Decidable (_ ≠ _))
  | jumpTo _ | jumpIfTo .. => inferInstanceAs (Decidable (_ ≤ _))
  | loadState .. | storeState .. | storeStateImmediate .. | move .. | moveImmediate ..
  | movePointer .. | alu .. | shift .. | setCondition .. | compare .. | compareState ..
  | subtractState .. | storeCondition .. | multiply .. | loadAddress .. | enter | leave | jump
  | jumpIf _ => inferInstanceAs (Decidable True)

/-- The jump that is appended, if it is one. A jump forward leads to its own end at first. -/
def jump? (a : Arena) : Emission → Option Jump
  | jump => some ⟨none, a.jump.1, a.jump.1⟩
  | jumpIf c => some ⟨some c, (a.jumpIf c).1, (a.jumpIf c).1⟩
  | jumpTo target => some ⟨none, a.size + 5, target⟩
  | jumpIfTo c target => some ⟨some c, a.size + 6, target⟩
  | _ => none

variable {e : Emission} {a b : Arena} {j : Jump}

/-- What is permitted is appended, as far as there is room. -/
theorem exists_emit {capacity : Nat} (h : e.Permitted capacity) (a : Arena) :
    ∃ b, e.emit a = .ok b ∧ a.Appends b := by
  cases e with
  | loadHost kind dst addr =>
    obtain ⟨place, hplace⟩ := addr.exists_resolve h
    exact ⟨_, by rw [emit, Sequence.loadHost, hplace]; rfl, .writeAll a _⟩
  | storeHost width addr src =>
    obtain ⟨place, hplace⟩ := addr.exists_resolve h
    exact ⟨_, by rw [emit, Sequence.storeHost, hplace]; rfl, .writeAll a _⟩
  | call function args =>
    have hfew : ¬ HostRegister.arguments.length < args.length := Nat.not_lt.2 h
    exact ⟨_, by rw [emit, Sequence.call, if_neg hfew]; rfl, .writeAll a _⟩
  | align alignment =>
    have halignment : alignment ≠ 0 := h
    exact ⟨_, by rw [emit, Arena.checkedAlign, if_neg halignment], .align a alignment⟩
  | jump => exact ⟨_, rfl, .jump a⟩
  | jumpIf c => exact ⟨_, rfl, .jumpIf a c⟩
  | jumpTo target => exact ⟨_, rfl, .jumpTo a target⟩
  | jumpIfTo c target => exact ⟨_, rfl, .jumpIfTo a c target⟩
  | _ => exact ⟨_, rfl, .writeAll a _⟩

/-- A jump of which nothing is dropped is appended with the distance from its end to its target. -/
theorem emit_of_jump? (h : e.jump? a = some j) (hpermitted : e.Permitted a.capacity)
    (hemit : e.emit a = .ok b) (hclean : b.overflowed = false) :
    b = a.append j.instruction.encode ∧ j.stop = b.size ∧
      (j.target = j.stop ∨ j.target ≤ a.capacity) := by
  cases e with
  | jump | jumpIf c =>
    obtain rfl := Option.some.inj h
    obtain rfl := Except.ok.inj hemit
    refine ⟨?_, rfl, .inl rfl⟩
    rw [Jump.instruction, jumpDistance_self]
    exact (Arena.emit_eq_append hclean).1
  | jumpTo target | jumpIfTo c target =>
    obtain rfl := Option.some.inj h
    obtain rfl := Except.ok.inj hemit
    have happend := (Arena.write_eq_append hclean).1
    exact ⟨happend, ((congrArg Arena.size happend).trans (Arena.size_append a _)).symm,
      .inr hpermitted⟩
  | _ => cases h

/-- An emitted jump lies behind what was there. -/
theorem lies_of_emit (h : e.jump? a = some j) (hpermitted : e.Permitted a.capacity)
    (hemit : e.emit a = .ok b) (hclean : b.overflowed = false) (hroom : b.size ≤ b.capacity) :
    j.start = a.size ∧ j.Lies b := by
  obtain ⟨rfl, hstop, htarget⟩ := emit_of_jump? h hpermitted hemit hclean
  rw [Arena.size_append, j.length_encode_instruction] at hstop hroom
  have hstart : j.start = a.size := by
    rw [Jump.start, hstop, Nat.add_sub_cancel]
  refine ⟨hstart, ?_, ?_, ?_, ?_⟩
  · exact hstop ▸ Nat.le_add_left _ _
  · exact Nat.le_of_eq (by rw [Arena.size_append, j.length_encode_instruction, hstop])
  · change j.target ≤ a.capacity
    change a.size + j.length ≤ a.capacity at hroom
    omega
  · rw [hstart]
    exact hasBytes_append a _

end Emission

/-! ## Emitters -/

/-- An arena that code is written to. -/
structure Emitter where
  /-- The code so far. -/
  code : Arena
  /-- The jumps that were emitted so far, latest first. -/
  jumps : List Jump
  deriving DecidableEq, Repr

namespace Emitter

/-- Something asked of an emitter. -/
inductive Request where
  | emit (e : Emission)
  /-- Sends the jump that ends at `stop` to the current offset. -/
  | bind (stop : Nat)
  /-- Sends the jump of five bytes at `start` to `target`. -/
  | patchJump (start target : Nat)
  deriving DecidableEq, Repr

/-- The end of the jump that a request overwrites. -/
def Request.stop? : Request → Option Nat
  | emit _ => none
  | bind stop => some stop
  | patchJump start _ => some (start + 5)

/-- An emitter without jumps of its own. -/
def start (a : Arena) : Emitter :=
  ⟨a, []⟩

/-- The emitter after the jump that ends at `stop` was sent to `target`, by which its code became
`code`. -/
def sending (s : Emitter) (stop target : Nat) (code : Arena) : Emitter :=
  ⟨code, s.jumps.map (Jump.sent stop target)⟩

/-- Does what is asked. -/
def perform (s : Emitter) : Request → Except Breach Emitter
  | .emit e => return ⟨← e.emit s.code, (e.jump? s.code).toList ++ s.jumps⟩
  | .bind stop => return s.sending stop s.code.size (s.code.bind stop)
  | .patchJump start target =>
    return s.sending (start + 5) target (s.code.patchJump start target).2

/-- Does what is asked, the first request first. -/
def run (s : Emitter) : List Request → Except Breach Emitter
  | [] => return s
  | r :: rest => do (← s.perform r).run rest

/-- The jump that a request sends somewhere, by the offset of its end, and where: a new jump to the
given target, or to its own end if none is given; a bound jump to the current offset. -/
def sends? (s : Emitter) : Request → Option (Nat × Nat)
  | .emit e => (e.jump? s.code).map fun j => (j.stop, j.target)
  | .bind stop => some (stop, s.code.size)
  | .patchJump start target => some (start + 5, target)

/-- Only jumps that were emitted are bound, once or more often, and only these are patched; but a
patch that does not lie inside the written code may be tried, and is refused. Targets lie inside the
code space. -/
def Permits (s : Emitter) : Request → Prop
  | .emit e => e.Permitted s.code.capacity
  | .bind stop => ∃ j ∈ s.jumps, j.stop = stop
  | .patchJump start target =>
    target ≤ s.code.capacity ∧
      ((∃ j ∈ s.jumps, j.stop = start + 5) ∨
        s.code.size < start + 5 ∧ start + 1 < UInt64.size)

instance (s : Emitter) (r : Request) : Decidable (s.Permits r) :=
  match r with
  | .emit e => inferInstanceAs (Decidable (e.Permitted _))
  | .bind _ => inferInstanceAs (Decidable (∃ j ∈ s.jumps, _))
  | .patchJump .. => inferInstanceAs (Decidable (_ ≤ _ ∧ ((∃ j ∈ s.jumps, _) ∨ _ ∧ _)))

/-- Every request of a run is permitted when its turn comes. -/
def PermitsAll (s : Emitter) : List Request → Prop
  | [] => True
  | r :: rest => s.Permits r ∧ ∀ s', s.perform r = .ok s' → s'.PermitsAll rest

instance decidablePermitsAll : (requests : List Request) → (s : Emitter) →
    Decidable (s.PermitsAll requests)
  | [], _ => inferInstanceAs (Decidable True)
  | r :: rest, s =>
    match h : s.perform r with
    | .ok s' =>
      have := decidablePermitsAll rest s'
      decidable_of_iff (s.Permits r ∧ s'.PermitsAll rest) (by simp [PermitsAll, h])
    | .error _ => decidable_of_iff (s.Permits r) (by simp [PermitsAll, h])

variable {s s' : Emitter} {r : Request}

/-! ### Jumps lie where they should -/

/-- The jumps lie one behind the other inside the code, and the code inside its limits. -/
structure Sound (s : Emitter) : Prop where
  within : s.code.size ≤ s.code.limit
  limit_le : s.code.limit ≤ s.code.capacity
  capacity_le : s.code.capacity ≤ 0x80000000
  apart : s.jumps.Pairwise fun j k => k.stop ≤ j.start
  lies : ∀ j ∈ s.jumps, j.Lies s.code

theorem sound_start {a : Arena} (hsize : a.size ≤ a.limit) (hlimit : a.limit ≤ a.capacity)
    (hcapacity : a.capacity ≤ 0x80000000) : (start a).Sound :=
  ⟨hsize, hlimit, hcapacity, .nil, fun _ hj => nomatch hj⟩

namespace Sound

theorem size_le (h : s.Sound) : s.code.size ≤ 0x80000000 :=
  Nat.le_trans h.within (Nat.le_trans h.limit_le h.capacity_le)

/-- Every jump leads to the offset that it was sent to last. -/
theorem leads (h : s.Sound) : ∀ j ∈ s.jumps, j.Leads s.code :=
  fun j hj => (h.lies j hj).leads h.size_le h.capacity_le

/-- Of two jumps with different ends, one lies behind the other. -/
theorem disjoint (h : s.Sound) {j k : Jump} (hj : j ∈ s.jumps) (hk : k ∈ s.jumps)
    (hne : j.stop ≠ k.stop) : k.stop ≤ j.start ∨ j.stop ≤ k.start := by
  have hall := List.Pairwise.forall_of_forall_of_flip
    (R := fun j k : Jump => j.stop = k.stop ∨ k.stop ≤ j.start ∨ j.stop ≤ k.start)
    (fun _ _ => .inl rfl) (h.apart.imp fun h => .inr (.inl h))
    (h.apart.imp fun h => .inr (.inr h)) hj hk
  exact hall.resolve_left hne

/-- What is appended leaves the jumps where they are, and a new one lies behind them. -/
theorem emit {e : Emission} {b : Arena} (h : s.Sound) (hpermitted : e.Permitted s.code.capacity)
    (hemit : e.emit s.code = .ok b) (hclean : b.overflowed = false) :
    Sound ⟨b, (e.jump? s.code).toList ++ s.jumps⟩ := by
  obtain ⟨b, hemit', happends⟩ := Emission.exists_emit hpermitted s.code
  obtain rfl := Except.ok.inj (hemit'.symm.trans hemit)
  have hwithin : b.size ≤ b.limit := happends.limit ▸ happends.within h.within
  have hlimit : b.limit ≤ b.capacity := by
    rw [happends.limit, happends.capacity]
    exact h.limit_le
  have hold : ∀ j ∈ s.jumps, j.Lies b := fun j hj => (h.lies j hj).of_appends happends
  have hnew : ∀ j, e.jump? s.code = some j → j.start = s.code.size ∧ j.Lies b := fun j hjump =>
    Emission.lies_of_emit hjump hpermitted hemit hclean (Nat.le_trans hwithin hlimit)
  refine ⟨hwithin, hlimit, happends.capacity ▸ h.capacity_le, ?_, ?_⟩
  · cases hjump : e.jump? s.code with
    | none => exact h.apart
    | some j =>
      have hstart := (hnew j hjump).1
      exact List.pairwise_cons.2 ⟨fun k hk => hstart ▸ (h.lies k hk).stop_le, h.apart⟩
  · cases hjump : e.jump? s.code with
    | none => exact hold
    | some j => exact List.forall_mem_cons.2 ⟨(hnew j hjump).2, hold⟩

/-- Sending one jump elsewhere leaves the others as they are. -/
theorem redirect {stop target : Nat} (h : s.Sound) (hmem : ∃ j ∈ s.jumps, j.stop = stop)
    (htarget : target ≤ s.code.capacity) :
    (s.sending stop target (s.code.redirect stop target)).Sound := by
  obtain ⟨k, hk, rfl⟩ := hmem
  have hredirects := s.code.redirects_redirect (h.lies k hk).four_le target
  have hlies : ∀ j ∈ s.jumps, (j.sent k.stop target).Lies (s.code.redirect k.stop target) := by
    intro j hj
    by_cases heq : j.stop = k.stop
    · rw [Jump.sent, if_pos heq, ← heq]
      exact (h.lies j hj).redirect htarget
    · rw [Jump.sent, if_neg heq]
      refine (h.lies j hj).of_redirects hredirects ?_
      -- A jump is longer than the distance at its end.
      have hlength : k.start + 4 ≤ k.stop := by
        have := (h.lies k hk).start_add
        have := (h.lies k hk).four_le
        omega
      have := h.disjoint hj hk heq
      omega
  refine ⟨?_, ?_, ?_, ?_, List.forall_mem_map.2 hlies⟩
  · change (s.code.redirect k.stop target).size ≤ (s.code.redirect k.stop target).limit
    rw [hredirects.size, hredirects.limit]
    exact h.within
  · change (s.code.redirect k.stop target).limit ≤ (s.code.redirect k.stop target).capacity
    rw [hredirects.limit, hredirects.capacity]
    exact h.limit_le
  · change (s.code.redirect k.stop target).capacity ≤ _
    rw [hredirects.capacity]
    exact h.capacity_le
  · refine h.apart.map _ fun j k h => ?_
    rwa [Jump.stop_sent, Jump.start_sent]

/-- A patch that is refused changes nothing. -/
theorem sending_of_lt {stop target : Nat} (h : s.Sound) (hlt : s.code.size < stop) :
    s.sending stop target (s.code.redirect stop target) = s := by
  have hjumps : s.jumps.map (Jump.sent stop target) = s.jumps := by
    refine (List.map_congr_left fun j hj => if_neg ?_).trans (List.map_id' _)
    have := (h.lies j hj).stop_le
    omega
  rw [sending, Arena.redirect_of_lt hlt, hjumps]

/-- Binding and patching come to redirecting a jump, if there is one. -/
theorem exists_redirect {stop : Nat} (h : s.Sound) (hpermits : s.Permits r)
    (hstop : r.stop? = some stop) :
    4 ≤ stop ∧ ((∃ j ∈ s.jumps, j.stop = stop) ∨ s.code.size < stop) ∧
      ∃ target ≤ s.code.capacity, s.sends? r = some (stop, target) ∧
        s.perform r = .ok (s.sending stop target (s.code.redirect stop target)) := by
  have hsmall : ∀ j ∈ s.jumps, j.stop < UInt64.size := fun j hj =>
    Nat.lt_of_le_of_lt (Nat.le_trans (h.lies j hj).stop_le h.size_le) (by decide)
  cases r with
  | emit e => cases hstop
  | bind stop =>
    obtain rfl := Option.some.inj hstop
    obtain ⟨j, hj, rfl⟩ := hpermits
    have hfour := (h.lies j hj).four_le
    refine ⟨hfour, .inl ⟨j, hj, rfl⟩, s.code.size, Nat.le_trans h.within h.limit_le, rfl, ?_⟩
    rw [← Arena.bind_eq_redirect s.code hfour (hsmall j hj)]
    rfl
  | patchJump start target =>
    obtain rfl := Option.some.inj hstop
    obtain ⟨htarget, hplace⟩ := hpermits
    have hstart : start + 1 < UInt64.size := by
      rcases hplace with ⟨j, hj, hend⟩ | ⟨-, hstart⟩
      · have := hsmall j hj
        omega
      · exact hstart
    refine ⟨by omega, hplace.imp_right And.left, target, htarget, rfl, ?_⟩
    rw [← Arena.patchJump_eq_redirect s.code target hstart]
    rfl

end Sound

/-! ### One request -/

/-- An emission that is permitted is done. -/
theorem exists_perform_emit {e : Emission} (h : e.Permitted s.code.capacity) :
    ∃ b, e.emit s.code = .ok b ∧ s.code.Appends b ∧
      s.perform (.emit e) = .ok ⟨b, (e.jump? s.code).toList ++ s.jumps⟩ := by
  obtain ⟨b, hemit, happends⟩ := Emission.exists_emit h s.code
  refine ⟨b, hemit, happends, ?_⟩
  rw [perform, hemit]
  rfl

/-- What is permitted is done, and nothing forgets that bytes were dropped. -/
theorem exists_perform (h : s.Permits r) :
    ∃ s', s.perform r = .ok s' ∧ (s'.code.overflowed = false → s.code.overflowed = false) := by
  cases r with
  | emit e =>
    obtain ⟨b, -, happends, hperform⟩ := exists_perform_emit h
    exact ⟨_, hperform, happends.clean⟩
  | bind stop => exact ⟨_, rfl, fun hclean => Arena.overflowed_bind s.code stop ▸ hclean⟩
  | patchJump start target =>
    refine ⟨_, rfl, fun hclean => ?_⟩
    simpa [sending, Arena.patchJump, Arena.patch_snd] using hclean

/-- While nothing is dropped, jumps lie where they should. -/
theorem Sound.perform (h : s.Sound) (hpermits : s.Permits r) (hperform : s.perform r = .ok s')
    (hclean : s'.code.overflowed = false) : s'.Sound := by
  cases hstop : r.stop? with
  | some stop =>
    obtain ⟨-, hplace, target, htarget, -, hsending⟩ := h.exists_redirect hpermits hstop
    obtain rfl := Except.ok.inj (hsending.symm.trans hperform)
    rcases hplace with hmem | hlt
    · exact h.redirect hmem htarget
    · rwa [h.sending_of_lt hlt]
  | none =>
    cases r with
    | emit e =>
      obtain ⟨b, hemit, -, hresult⟩ := exists_perform_emit hpermits
      obtain rfl := Except.ok.inj (hresult.symm.trans hperform)
      exact h.emit hpermits hemit hclean
    | bind stop | patchJump start target => cases hstop

/-- Binding and patching change nothing but the distance of the jump. -/
theorem Sound.redirects {stop : Nat} (h : s.Sound) (hpermits : s.Permits r)
    (hstop : r.stop? = some stop) (hperform : s.perform r = .ok s') :
    s.code.Redirects stop s'.code := by
  obtain ⟨hfour, -, target, -, -, hsending⟩ := h.exists_redirect hpermits hstop
  obtain rfl := Except.ok.inj (hsending.symm.trans hperform)
  exact s.code.redirects_redirect hfour target

/-- A jump that is sent somewhere is among the jumps from then on, unless it is not in the code. -/
theorem Sound.exists_sent {stop target : Nat} (h : s.Sound) (hpermits : s.Permits r)
    (hsends : s.sends? r = some (stop, target)) (hperform : s.perform r = .ok s')
    (hwritten : stop ≤ s'.code.size) :
    ∃ j ∈ s'.jumps, j.stop = stop ∧ j.target = target := by
  cases hstop : r.stop? with
  | some stop' =>
    obtain ⟨hfour, hplace, target', -, hsends', hsending⟩ := h.exists_redirect hpermits hstop
    obtain ⟨rfl, rfl⟩ := Prod.mk.inj (Option.some.inj (hsends'.symm.trans hsends))
    obtain rfl := Except.ok.inj (hsending.symm.trans hperform)
    have hsize : (s.code.redirect stop' target').size = s.code.size :=
      (s.code.redirects_redirect hfour target').size
    obtain ⟨j, hj, rfl⟩ := hplace.resolve_right (Nat.not_lt.2 (hsize ▸ hwritten))
    refine ⟨j.sent j.stop target', List.mem_map_of_mem hj, Jump.stop_sent _ _ j, ?_⟩
    rw [Jump.sent, if_pos rfl]
  | none =>
    cases r with
    | emit e =>
      obtain ⟨b, -, -, hresult⟩ := exists_perform_emit hpermits
      obtain rfl := Except.ok.inj (hresult.symm.trans hperform)
      obtain ⟨j, hjump, hj⟩ := Option.map_eq_some_iff.1 hsends
      obtain ⟨rfl, rfl⟩ := Prod.mk.inj hj
      refine ⟨j, ?_, rfl, rfl⟩
      rw [hjump]
      exact List.mem_cons_self
    | bind stop | patchJump start target => cases hstop

/-- Other jumps stay as they are. -/
theorem mem_jumps_perform {j : Jump} (hj : j ∈ s.jumps) (hpermits : s.Permits r)
    (hne : r.stop? ≠ some j.stop) (hperform : s.perform r = .ok s') : j ∈ s'.jumps := by
  have hkept (stop target : Nat) (hne : some stop ≠ some j.stop) :
      j ∈ s.jumps.map (Jump.sent stop target) :=
    List.mem_map.2 ⟨j, hj, if_neg fun heq => hne (congrArg some heq.symm)⟩
  cases r with
  | emit e =>
    obtain ⟨b, -, -, hresult⟩ := exists_perform_emit hpermits
    obtain rfl := Except.ok.inj (hresult.symm.trans hperform)
    exact List.mem_append_right _ hj
  | bind stop | patchJump start target =>
    obtain rfl := Except.ok.inj hperform
    exact hkept _ _ hne

/-! ### Runs -/

theorem run_cons (hperform : s.perform r = .ok s') (rest : List Request) :
    s.run (r :: rest) = s'.run rest := by
  rw [run, hperform]
  rfl

/-- A permitted run comes to its end, and does not forget that bytes were dropped. -/
theorem exists_run {requests : List Request} (hpermits : s.PermitsAll requests) :
    ∃ s', s.run requests = .ok s' ∧ (s'.code.overflowed = false → s.code.overflowed = false) := by
  induction requests generalizing s with
  | nil => exact ⟨s, rfl, id⟩
  | cons r rest ih =>
    obtain ⟨hfirst, hrest⟩ := hpermits
    obtain ⟨s₁, hperform, hclean₁⟩ := exists_perform hfirst
    obtain ⟨s', hrun, hclean⟩ := ih (hrest s₁ hperform)
    exact ⟨s', (run_cons hperform rest).trans hrun, hclean₁ ∘ hclean⟩

theorem overflowed_of_run {requests : List Request} (hpermits : s.PermitsAll requests)
    (hrun : s.run requests = .ok s') (hclean : s'.code.overflowed = false) :
    s.code.overflowed = false := by
  obtain ⟨s'', hrun'', hback⟩ := exists_run hpermits
  obtain rfl := Except.ok.inj (hrun''.symm.trans hrun)
  exact hback hclean

/-- While nothing is dropped, jumps lie where they should. -/
theorem Sound.run {requests : List Request} (h : s.Sound) (hpermits : s.PermitsAll requests)
    (hrun : s.run requests = .ok s') (hclean : s'.code.overflowed = false) : s'.Sound := by
  induction requests generalizing s with
  | nil =>
    obtain rfl := Except.ok.inj hrun
    exact h
  | cons r rest ih =>
    obtain ⟨hfirst, hrest⟩ := hpermits
    obtain ⟨s₁, hperform, -⟩ := exists_perform hfirst
    rw [run_cons hperform] at hrun
    have hclean₁ := overflowed_of_run (hrest s₁ hperform) hrun hclean
    exact ih (h.perform hfirst hperform hclean₁) (hrest s₁ hperform) hrun

/-- A jump stays as it is over a run that does not overwrite it. -/
theorem mem_jumps_run {requests : List Request} {j : Jump} (hj : j ∈ s.jumps)
    (hpermits : s.PermitsAll requests) (hne : ∀ r ∈ requests, r.stop? ≠ some j.stop)
    (hrun : s.run requests = .ok s') : j ∈ s'.jumps := by
  induction requests generalizing s with
  | nil =>
    obtain rfl := Except.ok.inj hrun
    exact hj
  | cons r rest ih =>
    obtain ⟨hfirst, hrest⟩ := hpermits
    obtain ⟨hne₁, hne⟩ := List.forall_mem_cons.1 hne
    obtain ⟨s₁, hperform, -⟩ := exists_perform hfirst
    rw [run_cons hperform] at hrun
    exact ih (mem_jumps_perform hj hfirst hne₁ hperform) (hrest s₁ hperform) hne hrun

/-- A permitted run in two parts. -/
theorem exists_run_append {earlier later : List Request}
    (hpermits : s.PermitsAll (earlier ++ later)) :
    s.PermitsAll earlier ∧ ∃ s₁, s.run earlier = .ok s₁ ∧ s₁.PermitsAll later ∧
      s.run (earlier ++ later) = s₁.run later := by
  induction earlier generalizing s with
  | nil => exact ⟨trivial, s, rfl, hpermits, rfl⟩
  | cons r rest ih =>
    obtain ⟨hfirst, hrest⟩ := hpermits
    obtain ⟨s₁, hperform, -⟩ := exists_perform hfirst
    obtain ⟨-, s₂, hrun, hlater, happend⟩ := ih (hrest s₁ hperform)
    refine ⟨⟨hfirst, fun s' hs' => (ih (hrest s' hs')).1⟩, s₂, ?_, hlater, ?_⟩
    · rw [run_cons hperform, hrun]
    · rw [List.cons_append, run_cons hperform, happend]

/-- In a code space of two gibibytes or less, whatever is appended, bound and patched in whatever
order, as long as nothing was dropped: every jump is read where it was emitted and leads where it
was sent last, be it the target that it was given, the offset at which it was bound or the target of
a patch; and binding and patching a jump change nothing but the four bytes of its distance. -/
theorem run_resolves_jumps {a : Arena} (hsize : a.size ≤ a.limit) (hlimit : a.limit ≤ a.capacity)
    (hcapacity : a.capacity ≤ 0x80000000) {requests : List Request}
    (hpermits : (start a).PermitsAll requests) :
    ∃ s, (start a).run requests = .ok s ∧
      (s.code.overflowed = false →
        (∀ j ∈ s.jumps, j.Leads s.code) ∧
        ∀ earlier r later, requests = earlier ++ r :: later →
          ∃ s₁ s₂, (start a).run earlier = .ok s₁ ∧ s₁.perform r = .ok s₂ ∧
            (∀ stop, r.stop? = some stop → s₁.code.Redirects stop s₂.code) ∧
            ∀ stop target, s₁.sends? r = some (stop, target) → stop ≤ s₂.code.size →
              (∀ r' ∈ later, r'.stop? ≠ some stop) → s.code.landing stop = target) := by
  have hstart : (start a).Sound := sound_start hsize hlimit hcapacity
  obtain ⟨s, hrun, -⟩ := exists_run hpermits
  refine ⟨s, hrun, fun hclean => ⟨(hstart.run hpermits hrun hclean).leads, ?_⟩⟩
  rintro earlier r later rfl
  obtain ⟨hearlier, s₁, hrun₁, ⟨hpermits₁, hlater⟩, hrest⟩ := exists_run_append hpermits
  obtain ⟨s₂, hperform, hback⟩ := exists_perform hpermits₁
  have hpermits₂ : s₂.PermitsAll later := hlater s₂ hperform
  have hrun₂ : s₂.run later = .ok s := by
    rw [← run_cons hperform, ← hrest, hrun]
  -- Nothing was dropped before the end either.
  have hclean₂ : s₂.code.overflowed = false := overflowed_of_run hpermits₂ hrun₂ hclean
  have hsound₁ : s₁.Sound := hstart.run hearlier hrun₁ (hback hclean₂)
  have hsound₂ : s₂.Sound := hsound₁.perform hpermits₁ hperform hclean₂
  refine ⟨s₁, s₂, hrun₁, hperform, ?_, ?_⟩
  · exact fun stop hstop => hsound₁.redirects hpermits₁ hstop hperform
  · intro stop target hsends hwritten hlast
    obtain ⟨j, hj, rfl, rfl⟩ := hsound₁.exists_sent hpermits₁ hsends hperform hwritten
    have hkept : j ∈ s.jumps := mem_jumps_run hj hpermits₂ hlast hrun₂
    exact ((hsound₂.run hpermits₂ hrun₂ hclean).leads j hkept).landing

/-- Jumps forward that cross each other, one that is patched, and a patch that is refused. -/
theorem run_resolves_jumps_of_crossing :
    let requests : List Request :=
      [.emit (.jumpIf .less), .emit (.jumpTo 48), .emit .jump, .bind 6,
        .emit (.moveImmediate .rbx 1), .patchJump 6 0, .bind 16, .patchJump 60 0,
        .emit (.jumpIfTo .equal 64)]
    (Arena.blank 64).size ≤ (Arena.blank 64).limit ∧
      (Arena.blank 64).limit ≤ (Arena.blank 64).capacity ∧
      (Arena.blank 64).capacity ≤ 0x80000000 ∧ (start (.blank 64)).PermitsAll requests ∧
      ∃ s, (start (.blank 64)).run requests = .ok s ∧ s.code.overflowed = false ∧
        s.jumps = [⟨some .equal, 27, 64⟩, ⟨none, 16, 21⟩, ⟨none, 11, 0⟩, ⟨some .less, 6, 16⟩] ∧
        (∀ j ∈ s.jumps, j.Leads s.code) ∧ s.code.landing 11 = 0 := by
  intro requests
  have hpermits : (start (.blank 64)).PermitsAll requests := by decide +kernel
  have hresult : ((start (.blank 64)).run requests).toOption.map
      (fun s => (s.code.overflowed, s.jumps)) = some (false,
        [⟨some .equal, 27, 64⟩, ⟨none, 16, 21⟩, ⟨none, 11, 0⟩, ⟨some .less, 6, 16⟩]) := by
    decide +kernel
  obtain ⟨s, hrun, hend⟩ := run_resolves_jumps (by decide) (by decide) (by decide) hpermits
  rw [hrun] at hresult
  obtain ⟨hclean, hjumps⟩ := Prod.mk.inj (Option.some.inj hresult)
  obtain ⟨hleads, -⟩ := hend hclean
  have hpatched : (⟨none, 11, 0⟩ : Jump) ∈ s.jumps := by
    rw [hjumps]
    decide
  exact ⟨by decide, by decide, by decide, hpermits, s, hrun, hclean, hjumps, hleads,
    (hleads _ hpatched).landing⟩

end Emitter

end Recompiler
