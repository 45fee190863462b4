import Recompiler.Memory.Flat
import Recompiler.Proofs.Block.Mapping
import Recompiler.Proofs.Code.Running

/-!
# Operations on the register cache

The operations that lowering uses, those on several registers included, and one theorem about all of
them: no guest register loses its value, down to the bytes that are emitted.

* `RegisterCache.moves_mapSources`, `RegisterCache.moves_mapTarget`,
  `RegisterCache.moves_mapTargetSources`: sources stay mapped while others are mapped.
* `CacheOperation.values_kept`: every operation, failing ones included.
-/

namespace Recompiler

namespace RegisterCache

open Allocate HostMachine

variable {β : Type} [Bus β] {a : Allocation} {m : HostMachine β} {reg : GuestIndex}
  {host : HostRegister} {access : Access}

/-! ## Mapping several registers -/

theorem locked_lock_self (c : RegisterCache) (reg : GuestIndex) : (c.lock reg).locked.get reg = true :=
  Vector.getElem_set_self reg.isLt

theorem locked_lock_lock (c : RegisterCache) (reg r : GuestIndex) :
    ((c.lock reg).lock r).locked.get reg = true := by
  change ((c.lock reg).locked.set r true)[reg.val] = true
  rw [Vector.getElem_set]
  split
  · rfl
  · exact locked_lock_self c reg

omit [Bus β] in
/-- Locks do not move anything. -/
theorem Consistent.setLocked {c : RegisterCache} (h : c.Consistent m) (locked : Vector Bool 32) :
    Consistent { c with locked := locked } m :=
  ⟨⟨h.hosts, h.resident⟩, h.clean, h.zeroWord, h.zero, h.context⟩

theorem moves_setLocked (h : a.cache.Consistent m) (locked : Vector Bool 32) :
    a.Moves [] m { a with cache := { a.cache with locked := locked } } m :=
  ⟨⟨[], (List.append_nil _).symm, rfl⟩, h.setLocked locked, fun _ _ => rfl, .refl m⟩

omit [Bus β] in
/-- A locked register that was mapped for reading stays mapped. -/
theorem Mapped.stays {c d : RegisterCache} {n p : HostMachine β} {value : UInt32}
    (hmapped : c.Mapped n reg .read value host) (hlocked : c.locked.get reg = true)
    (hspares : c.Spares d) (hvalue : d.value p reg = c.value n reg) :
    d.Mapped p reg .read value host := by
  obtain ⟨-, hwrites, -⟩ | hplace := hmapped.place
  · cases hwrites
  · have hplace' := hspares.stays reg host hlocked hplace
    rw [value_of_host hplace, value_of_host hplace'] at hvalue
    exact ⟨fun hne => hvalue.trans (hmapped.value hne), .inr hplace', fun _ hwrites => by cases hwrites⟩

/-- Mapping another register keeps the locked sources that were mapped before. -/
theorem moves_map_after (reg : GuestIndex) (access : Access)
    (sources : List (GuestIndex × HostRegister)) {b : Allocation} {n : HostMachine β}
    (hmoves : a.Moves [] m b n)
    (hlocked : ∀ s ∈ sources, b.cache.locked.get s.1 = true)
    (hsources : ∀ s ∈ sources, b.cache.Mapped n s.1 .read (a.cache.value m s.1) s.2)
    (haccess : access = .write → reg ∉ sources.map Prod.fst) :
    ∃ p, a.Moves (access.lost reg) m (exec (map reg access) b).2 p ∧
      (exec (map reg access) b).2.cache.locked = b.cache.locked ∧
      ∀ host, (exec (map reg access) b).1 = .ok host →
        (exec (map reg access) b).2.cache.Mapped p reg access (a.cache.value m reg) host ∧
        ∀ s ∈ sources,
          (exec (map reg access) b).2.cache.Mapped p s.1 .read (a.cache.value m s.1) s.2 := by
  obtain ⟨p, hmoves', hspares, hmapped⟩ := maps hmoves.consistent reg access
  refine ⟨p, hmoves.trans hmoves', hspares.locked, fun host hok => ⟨?_, fun s hs => ?_⟩⟩
  · rw [← hmoves.value reg List.not_mem_nil]
    exact hmapped host hok
  · refine (hsources s hs).stays (hlocked s hs) hspares
      (hmoves'.value_of_zero hmoves.consistent fun hmem => ?_)
    rw [Access.lost] at hmem
    split at hmem
    · next hlost =>
      obtain heq : s.1 = reg := List.mem_singleton.1 hmem
      obtain hwrite | ⟨hzero, -⟩ := hlost
      · exact absurd (List.mem_map_of_mem hs) (heq ▸ haccess hwrite)
      · exact heq.trans hzero
    · cases hmem

/-- The same where mapping the register is the last step, after which the host registers are given. -/
theorem moves_map_last {α : Type} (reg : GuestIndex) (access : Access)
    (sources : List (GuestIndex × HostRegister)) (f : HostRegister → α) {b : Allocation}
    {n : HostMachine β} (hmoves : a.Moves [] m b n)
    (hlocked : ∀ s ∈ sources, b.cache.locked.get s.1 = true)
    (hsources : ∀ s ∈ sources, b.cache.Mapped n s.1 .read (a.cache.value m s.1) s.2)
    (haccess : access = .write → reg ∉ sources.map Prod.fst) {r : Except Failure α × Allocation}
    (hexec : exec (map reg access >>= fun host => pure (f host)) b = r) :
    ∃ p, a.Moves (access.lost reg) m r.2 p ∧ r.2.cache.locked = b.cache.locked ∧
      ∀ x, r.1 = .ok x → ∃ host, x = f host ∧
        r.2.cache.Mapped p reg access (a.cache.value m reg) host ∧
        ∀ s ∈ sources, r.2.cache.Mapped p s.1 .read (a.cache.value m s.1) s.2 := by
  obtain ⟨p, hmoves', hkept, hmapped⟩ :=
    moves_map_after reg access sources hmoves hlocked hsources haccess
  cases hmap : (exec (map reg access) b).1 with
  | error e =>
    rw [exec_bind_of_error (Prod.ext hmap rfl)] at hexec
    subst hexec
    exact ⟨p, hmoves', hkept, fun _ hok => by cases hok⟩
  | ok host =>
    rw [exec_bind_of_ok (Prod.ext hmap rfl)] at hexec
    subst hexec
    refine ⟨p, hmoves', hkept, fun x hok => ⟨host, ?_, hmapped host hmap⟩⟩
    exact (Except.ok.inj hok).symm

/-- Two registers mapped for reading. -/
theorem moves_mapSources (h : a.cache.Consistent m) (rs rt : GuestIndex) :
    ∃ n, a.Moves [] m (exec (mapSources rs rt) a).2 n ∧
      (exec (mapSources rs rt) a).2.cache.locked = ((a.cache.lock rs).lock rt).locked ∧
      ∀ x y, (exec (mapSources rs rt) a).1 = .ok (x, y) →
        (exec (mapSources rs rt) a).2.cache.Mapped n rs .read (a.cache.value m rs) x ∧
        (exec (mapSources rs rt) a).2.cache.Mapped n rt .read (a.cache.value m rt) y := by
  let a₁ : Allocation := { a with cache := (a.cache.lock rs).lock rt }
  have hlocks : a.Moves [] m a₁ m := moves_setLocked h _
  obtain ⟨n, hmoves, hkept, hmapped⟩ := moves_map_after rs .read [] hlocks
    (fun _ hs => by cases hs) (fun _ hs => by cases hs) (fun heq => by cases heq)
  rw [Access.lost_read] at hmoves
  have hexec : exec (mapSources rs rt) a =
      exec (map rs .read >>= fun x => map rt .read >>= fun y => pure (x, y)) a₁ := rfl
  rw [hexec]
  cases hrs : (exec (map rs .read) a₁).1 with
  | error e =>
    rw [exec_bind_of_error (Prod.ext hrs rfl)]
    exact ⟨n, hmoves, hkept, fun _ _ hok => by cases hok⟩
  | ok x =>
    -- Both registers were locked, so the first stays mapped while the second is.
    have hrsLocked : (exec (map rs .read) a₁).2.cache.locked.get rs = true := by
      rw [hkept]
      exact locked_lock_lock _ rs rt
    rw [exec_bind_of_ok (Prod.ext hrs rfl)]
    obtain ⟨p, hmoves', hkept', hmapped'⟩ := moves_map_last rt .read [(rs, x)] (x, ·) hmoves
      (by simpa using hrsLocked) (by simpa using (hmapped x hrs).1) (fun heq => by cases heq) rfl
    rw [Access.lost_read] at hmoves'
    refine ⟨p, hmoves', hkept'.trans hkept, fun x' y' hok => ?_⟩
    obtain ⟨y, heq, hmappedRt, hsources⟩ := hmapped' _ hok
    cases heq
    exact ⟨hsources (rs, x) (List.mem_singleton_self _), hmappedRt⟩

/-- How a target is mapped, which may be one of the sources at the same time. -/
def targetAccess (dst : GuestIndex) (sources : List GuestIndex) : Access :=
  if dst ∈ sources then .readWrite else .write

theorem not_mem_of_targetAccess {dst : GuestIndex} {sources : List GuestIndex}
    (h : targetAccess dst sources = .write) : dst ∉ sources := by
  intro hmem
  rw [targetAccess, if_pos hmem] at h
  cases h

/-- A register mapped for writing and another for reading. -/
theorem moves_mapTarget (h : a.cache.Consistent m) (dst src : GuestIndex) :
    ∃ n, a.Moves ((targetAccess dst [src]).lost dst) m
        (exec (mapTarget dst src) a).2 n ∧
      ∀ x y, (exec (mapTarget dst src) a).1 = .ok (x, y) →
        (exec (mapTarget dst src) a).2.cache.Mapped n dst (targetAccess dst [src])
          (a.cache.value m dst) x ∧
        (exec (mapTarget dst src) a).2.cache.Mapped n src .read (a.cache.value m src) y := by
  -- Both registers are locked first, so that mapping the one does not evict the other.
  let a₁ : Allocation := { a with cache := (a.cache.lock dst).lock src }
  have hlocks : a.Moves [] m a₁ m := moves_setLocked h _
  obtain ⟨n, hmoves, hkept, hmapped⟩ := moves_map_after src .read [] hlocks
    (fun _ hs => by cases hs) (fun _ hs => by cases hs) (fun heq => by cases heq)
  rw [Access.lost_read] at hmoves
  have hexec : exec (mapTarget dst src) a =
      exec (map src .read >>= fun y => map dst (targetAccess dst [src]) >>= fun x =>
        pure (x, y)) a₁ := by
    simp only [targetAccess, List.mem_singleton]
    rfl
  rw [hexec]
  cases hsrc : (exec (map src .read) a₁).1 with
  | error e =>
    rw [exec_bind_of_error (Prod.ext hsrc rfl)]
    exact ⟨n, hmoves.mono (List.nil_subset _), fun _ _ hok => by cases hok⟩
  | ok y =>
    have hsrcLocked : (exec (map src .read) a₁).2.cache.locked.get src = true := by
      rw [hkept]
      exact locked_lock_self _ src
    rw [exec_bind_of_ok (Prod.ext hsrc rfl)]
    obtain ⟨p, hmoves', -, hmapped'⟩ := moves_map_last dst (targetAccess dst [src]) [(src, y)]
      (·, y) hmoves (by simpa using hsrcLocked) (by simpa using (hmapped y hsrc).1)
      not_mem_of_targetAccess rfl
    refine ⟨p, hmoves', fun x' y' hok => ?_⟩
    obtain ⟨x, heq, hmappedDst, hsources⟩ := hmapped' _ hok
    cases heq
    exact ⟨hmappedDst, hsources (src, y) (List.mem_singleton_self _)⟩

/-- A register mapped for writing and two for reading. -/
theorem moves_mapTargetSources (h : a.cache.Consistent m) (dst rs rt : GuestIndex) :
    ∃ n, a.Moves ((targetAccess dst [rs, rt]).lost dst) m
        (exec (mapTargetSources dst rs rt) a).2 n ∧
      ∀ x y z, (exec (mapTargetSources dst rs rt) a).1 = .ok (x, y, z) →
        (exec (mapTargetSources dst rs rt) a).2.cache.Mapped n dst (targetAccess dst [rs, rt])
          (a.cache.value m dst) x ∧
        (exec (mapTargetSources dst rs rt) a).2.cache.Mapped n rs .read (a.cache.value m rs) y ∧
        (exec (mapTargetSources dst rs rt) a).2.cache.Mapped n rt .read (a.cache.value m rt) z := by
  -- The target is locked before the sources are mapped, and is itself mapped last.
  let a₁ : Allocation := { a with cache := a.cache.lock dst }
  have hlocks : a.Moves [] m a₁ m := moves_setLocked h _
  obtain ⟨n, hmoves, hkept, hmapped⟩ := moves_mapSources hlocks.consistent rs rt
  have hexec : exec (mapTargetSources dst rs rt) a =
      exec (mapSources rs rt >>= fun s => map dst (targetAccess dst [rs, rt]) >>= fun x =>
        pure (x, s.1, s.2)) a₁ := by
    simp only [targetAccess, List.mem_cons, List.not_mem_nil, or_false]
    rfl
  rw [hexec]
  cases hsrc : (exec (mapSources rs rt) a₁).1 with
  | error e =>
    rw [exec_bind_of_error (Prod.ext hsrc rfl)]
    exact ⟨n, (hlocks.trans hmoves).mono (List.nil_subset _), fun _ _ _ hok => by cases hok⟩
  | ok s =>
    obtain ⟨y, z⟩ := s
    obtain ⟨hrs, hrt⟩ := hmapped y z hsrc
    rw [exec_bind_of_ok (Prod.ext hsrc rfl)]
    obtain ⟨p, hmoves', -, hmapped'⟩ := moves_map_last dst (targetAccess dst [rs, rt])
      [(rs, y), (rt, z)] (·, y, z) (hlocks.trans hmoves)
      (by simpa [hkept] using ⟨locked_lock_lock _ rs rt, locked_lock_self _ rt⟩)
      (by simpa using ⟨hrs, hrt⟩) not_mem_of_targetAccess rfl
    refine ⟨p, hmoves', fun x' y' z' hok => ?_⟩
    obtain ⟨x, heq, hmappedDst, hsources⟩ := hmapped' _ hok
    cases heq
    exact ⟨hmappedDst, hsources (rs, y) (by simp), hsources (rt, z) (by simp)⟩

end RegisterCache

/-! ## All operations -/

/-- An operation on the register cache. -/
inductive CacheOperation where
  | map (reg : GuestIndex) (access : Access)
  | mapSources (rs rt : GuestIndex)
  | mapTarget (dst src : GuestIndex)
  | mapTargetSources (dst rs rt : GuestIndex)
  | flushHost (host : HostRegister)
  | flush (reg : GuestIndex)
  | flushAll
  | setImmediate (reg : GuestIndex) (value : UInt32)
  deriving DecidableEq, Repr

namespace CacheOperation

open RegisterCache Allocate HostMachine

/-- Carries the operation out, and gives the host registers of its operands. -/
def perform : CacheOperation → Allocate (List HostRegister)
  | map reg access => do
    let host ← RegisterCache.map reg access
    return [host]
  | mapSources rs rt => do
    let (rs, rt) ← RegisterCache.mapSources rs rt
    return [rs, rt]
  | mapTarget dst src => do
    let (dst, src) ← RegisterCache.mapTarget dst src
    return [dst, src]
  | mapTargetSources dst rs rt => do
    let (dst, rs, rt) ← RegisterCache.mapTargetSources dst rs rt
    return [dst, rs, rt]
  | flushHost host => do
    RegisterCache.flushHost host
    return []
  | flush reg => do
    RegisterCache.flush reg
    return []
  | flushAll => do
    RegisterCache.flushAll
    return []
  | setImmediate reg value => do
    update (·.setImmediate reg value)
    return []

/-- The operands that are brought into host registers, with what is going to be done to them. -/
def operands : CacheOperation → List (GuestIndex × Access)
  | map reg access => [(reg, access)]
  | mapSources rs rt => [(rs, .read), (rt, .read)]
  | mapTarget dst src => [(dst, targetAccess dst [src]), (src, .read)]
  | mapTargetSources dst rs rt => [(dst, targetAccess dst [rs, rt]), (rs, .read), (rt, .read)]
  | _ => []

/-- The operands whose values are not needed any more. -/
def overwritten (op : CacheOperation) : List GuestIndex :=
  op.operands.filterMap fun (reg, access) => if access = .write then some reg else none

/-- The operands that lose their values, register zero among them if it is written. -/
def lost (op : CacheOperation) : List GuestIndex :=
  op.operands.flatMap fun (reg, access) => access.lost reg

theorem mem_overwritten_of_mem_lost {op : CacheOperation} {reg : GuestIndex} (h : reg ∈ op.lost) :
    reg ∈ op.overwritten ∨ reg = zeroRegister := by
  obtain ⟨⟨r, access⟩, hoperand, hmem⟩ := List.mem_flatMap.1 h
  dsimp only [Access.lost] at hmem
  split at hmem
  · next hlost =>
    obtain rfl : reg = r := List.mem_singleton.1 hmem
    refine hlost.imp (fun hwrite => ?_) And.left
    exact List.mem_filterMap.2 ⟨_, hoperand, if_pos hwrite⟩
  · cases hmem

/-- The values of the guest registers after the operation. -/
def after (op : CacheOperation) (values : GuestIndex → UInt32) (reg : GuestIndex) : UInt32 :=
  match op with
  | setImmediate r value => if reg = r ∧ r ≠ zeroRegister then value else values reg
  | _ => values reg

/-- The host registers hold the operands that are read. -/
def Delivers {β : Type} (m : HostMachine β) (values : GuestIndex → UInt32)
    (hosts : List HostRegister) (operands : List (GuestIndex × Access)) : Prop :=
  List.Forall₂ (fun host operand => operand.2 ≠ .write → m.getWord host = values operand.1)
    hosts operands

variable {β : Type} [Bus β] {a : Allocation} {m : HostMachine β}

/-- An operation that gives the host registers of its operands moves what it moves, whether or not it
comes to giving them. -/
theorem moves_of_delivers {α : Type} {x : Allocate α} {lost : List GuestIndex} {n : HostMachine β}
    {operands : List (GuestIndex × Access)} (f : α → List HostRegister)
    (hmoves : a.Moves lost m (exec x a).2 n)
    (hdelivers : ∀ r, (exec x a).1 = .ok r → Delivers n (a.cache.value m) (f r) operands) :
    ∃ n, a.Moves lost m (exec (x >>= fun r => pure (f r)) a).2 n ∧
      ∀ hosts, (exec (x >>= fun r => pure (f r)) a).1 = .ok hosts →
        Delivers n (a.cache.value m) hosts operands := by
  cases hresult : (exec x a).1 with
  | error err =>
    rw [exec_bind_of_error (Prod.ext hresult rfl)]
    exact ⟨n, hmoves, fun _ hok => by cases hok⟩
  | ok r =>
    rw [exec_bind_of_ok (Prod.ext hresult rfl)]
    refine ⟨n, hmoves, fun hosts hok => ?_⟩
    cases hok
    exact hdelivers r hresult

/-- Operations that record no constant keep all values but those to be overwritten. -/
theorem moves_perform (h : a.cache.Consistent m) (op : CacheOperation)
    (hop : ∀ reg value, op ≠ setImmediate reg value) :
    ∃ n, a.Moves op.lost m (exec op.perform a).2 n ∧
      ∀ hosts, (exec op.perform a).1 = .ok hosts →
        Delivers n (a.cache.value m) hosts op.operands := by
  -- An operation moves what its parts move, and gives its operands in the order of the request.
  cases op with
  | map reg access =>
    obtain ⟨n, hmoves, -, hmapped⟩ := maps h reg access
    have hlost : (map reg access).lost = access.lost reg := by simp [lost, operands]
    rw [hlost]
    exact moves_of_delivers (fun host => [host]) hmoves fun host hok =>
      .cons (hmapped host hok).value .nil
  | mapSources rs rt =>
    obtain ⟨n, hmoves, -, hmapped⟩ := moves_mapSources h rs rt
    have hlost : (mapSources rs rt).lost = [] := by simp [lost, operands]
    rw [hlost]
    refine moves_of_delivers (fun hosts => [hosts.1, hosts.2]) hmoves fun hosts hok => ?_
    obtain ⟨hx, hy⟩ := hmapped hosts.1 hosts.2 hok
    exact .cons hx.value (.cons hy.value .nil)
  | mapTarget dst src =>
    obtain ⟨n, hmoves, hmapped⟩ := moves_mapTarget h dst src
    have hlost : (mapTarget dst src).lost = (targetAccess dst [src]).lost dst := by
      simp [lost, operands, Access.lost, Access.writes]
    rw [hlost]
    refine moves_of_delivers (fun hosts => [hosts.1, hosts.2]) hmoves fun hosts hok => ?_
    obtain ⟨hx, hy⟩ := hmapped hosts.1 hosts.2 hok
    exact .cons hx.value (.cons hy.value .nil)
  | mapTargetSources dst rs rt =>
    obtain ⟨n, hmoves, hmapped⟩ := moves_mapTargetSources h dst rs rt
    have hlost : (mapTargetSources dst rs rt).lost = (targetAccess dst [rs, rt]).lost dst := by
      simp [lost, operands, Access.lost, Access.writes]
    rw [hlost]
    refine moves_of_delivers (fun hosts => [hosts.1, hosts.2.1, hosts.2.2]) hmoves
      fun hosts hok => ?_
    obtain ⟨hx, hy, hz⟩ := hmapped hosts.1 hosts.2.1 hosts.2.2 hok
    exact .cons hx.value (.cons hy.value (.cons hz.value .nil))
  | flushHost host =>
    obtain ⟨n, -, hmoves⟩ := moves_flushHost h host
    exact moves_of_delivers (fun _ => []) hmoves fun _ _ => .nil
  | flush reg =>
    obtain ⟨n, -, hmoves⟩ := moves_flush h reg
    exact moves_of_delivers (fun _ => []) hmoves fun _ _ => .nil
  | flushAll =>
    obtain ⟨n, -, hmoves⟩ := moves_flushAll h
    exact moves_of_delivers (fun _ => []) hmoves fun _ _ => .nil
  | setImmediate reg value => exact absurd rfl (hop reg value)

/-- Whatever an operation does to a cache that agrees with the machine, failing ones included:
running the bytes it emits leads to a machine that agrees with the new cache, every guest register
that is not about to be overwritten has its value, and the host registers that are handed out for
reading hold what they are read for. -/
theorem values_kept {c : RegisterCache} (h : c.Consistent m) (op : CacheOperation)
    {result : Except Failure (List HostRegister)} {b : Allocation}
    (hexec : exec op.perform ⟨c, [], []⟩ = (result, b)) :
    ∃ n : HostMachine β,
      (∀ (code : Arena) (ip : Nat),
        HasBytes code.written ip (b.code.flatMap HostInstruction.encode) →
          Steps code b.code.length (m.goto ip)
            (n.goto (ip + (b.code.flatMap HostInstruction.encode).length))) ∧
      b.cache.Consistent n ∧
      (∀ reg, (reg ∈ op.overwritten → reg = zeroRegister) →
        b.cache.value n reg = op.after (c.value m) reg) ∧
      ∀ hosts, result = .ok hosts → Delivers n (c.value m) hosts op.operands := by
  -- A new constant is the only thing that changes a value, and it takes no code.
  by_cases hop : ∃ reg value, op = setImmediate reg value
  · obtain ⟨reg, v, rfl⟩ := hop
    cases hexec
    refine ⟨m, fun _ _ _ => rfl, ?_⟩
    by_cases hreg : reg = zeroRegister
    · have hsame : c.setImmediate reg v = c := if_pos hreg
      refine ⟨?_, fun r _ => ?_, fun hosts hok => ?_⟩
      · change (c.setImmediate reg v).Consistent m
        rwa [hsame]
      · change (c.setImmediate reg v).value m r = _
        rw [hsame, after, if_neg fun hboth => hboth.2 hreg]
      · cases hok
        exact .nil
    · obtain ⟨hconsistent, hvalues⟩ := h.setImmediate hreg v
      refine ⟨hconsistent, fun r _ => ?_, fun hosts hok => ?_⟩
      · simpa [after, hreg] using hvalues r
      · cases hok
        exact .nil
  -- The other operations move registers about, and their code runs straight.
  · have hafter (reg : GuestIndex) : op.after (c.value m) reg = c.value m reg := by
      cases op <;> first | rfl | exact absurd ⟨_, _, rfl⟩ hop
    obtain ⟨n, hmoves, hdelivers⟩ := moves_perform (a := ⟨c, [], []⟩) h op
      fun reg value heq => hop ⟨reg, value, heq⟩
    rw [hexec] at hmoves hdelivers
    obtain ⟨is, hcode, hruns⟩ := hmoves.code
    refine ⟨n, fun code ip hbytes => ?_, hmoves.consistent, fun reg hreg => ?_, hdelivers⟩
    · rw [hcode] at hbytes ⊢
      exact hruns.steps hbytes
    · rw [hafter]
      exact hmoves.value_of_zero h fun hmem => (mem_overwritten_of_mem_lost hmem).elim hreg id

/-- Three registers brought into a cache in which `t1` is a constant, and `t2` and `t3` are still in
the guest state. -/
theorem values_kept_of_fresh :
    ∃ m n : HostMachine FlatMemory,
      (RegisterCache.fresh.setImmediate 9 5).Consistent m ∧
      (exec (mapTargetSources 10 9 11).perform
        ⟨RegisterCache.fresh.setImmediate 9 5, [], []⟩).2.cache.Consistent n ∧
      n.getWord .rbx = 5 ∧ n.getWord .rbp = 0 := by
  let m : HostMachine FlatMemory :=
    (HostMachine.start (.initial (FlatMemory.zeros 0 0 0)) 0 0 0).set .context Linkage.contextBase
  have hfresh : RegisterCache.fresh.start.Consistent m := .start rfl (by decide) (by decide)
  have hconsistent : (RegisterCache.fresh.setImmediate 9 5).Consistent m :=
    (hfresh.setImmediate (by decide : (9 : GuestIndex) ≠ zeroRegister) 5).1
  obtain ⟨n, -, hafter, -, hhosts⟩ := values_kept hconsistent (mapTargetSources 10 9 11) rfl
  have hdelivers := hhosts [.r12, .rbx, .rbp] (by decide)
  simp only [Delivers, operands, List.forall₂_cons] at hdelivers
  obtain ⟨-, hrs, hrt, -⟩ := hdelivers
  exact ⟨m, n, hconsistent, hafter, (hrs (by decide)).trans (by decide),
    (hrt (by decide)).trans (by decide)⟩

end CacheOperation

end Recompiler
