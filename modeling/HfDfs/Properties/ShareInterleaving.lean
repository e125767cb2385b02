import HfDfs.Library.Interleaving
import HfDfs.Requests

/-!
# Interleaved requests and the counter of shared files

`share_file` and `cancel_share_file` keep the reserved row of
`user_file_count` in the same way: a SELECT, and later an INSERT, an UPDATE
or a DELETE made from what it returned.
-/

namespace HfDfs

set_option autoImplicit false

open Procedures Procedures.Procedure Zlexcount

inductive CounterStage where
  | untouched
  | read (value : Option Int)
  | settled
deriving DecidableEq, Repr

def CounterStage.inside : CounterStage → Bool
  | .read _ => true
  | .untouched | .settled => false

inductive ShareRole where
  | share
  | cancel
deriving DecidableEq, Repr

namespace ShareRole

def delta : ShareRole → Int
  | share => 1
  | cancel => -1

/-- What the request has done to the counter so far. -/
def counted (role : ShareRole) (g : CounterStage) : Int := if g = .settled then role.delta else 0

end ShareRole

def Tables.shareCount (t : Tables) : Int := (t.userFileCount shareCountUser).getD 0

/-- `user_file_count` is not involved. -/
def Command.quietCounter : Command → Bool
  | .processResultOne (.userFileCount _) _ => false
  | .mysqlQuery (.insertUserFileCount _ _) | .mysqlQuery (.updateUserFileCount _ _)
  | .mysqlQuery (.deleteUserFileCount _) => false
  | _ => true

def counterProtocol (role : ShareRole) : Protocol Command Reply Int CounterStage where
  start := .untouched
  next g c r :=
    match c, r with
    | .processResultOne (.userFileCount _) _, .noRow => .read none
    | .processResultOne (.userFileCount _) _, .row tmp => .read (some tmp.atoi)
    | .mysqlQuery (.insertUserFileCount _ _), true => .settled
    | .mysqlQuery (.updateUserFileCount _ _), true => .settled
    | .mysqlQuery (.deleteUserFileCount _), true => .settled
    | _, _ => g
  allowed g c :=
    match c with
    | .processResultOne (.userFileCount user) save =>
      user = shareCountUser ∧ save = true ∧ g = .untouched
    | .mysqlQuery (.insertUserFileCount user count) =>
      user = shareCountUser ∧ role = .share ∧ g = .read none ∧ count = 1
    | .mysqlQuery (.updateUserFileCount count user) =>
      user = shareCountUser ∧ ∃ k, g = .read (some k) ∧ count = k + role.delta
    | .mysqlQuery (.deleteUserFileCount user) =>
      user = shareCountUser ∧ role = .cancel ∧ g = .read (some 1)
    | c => c.quietCounter = true
  final g ret := ret = 0 → g = .settled

/-! ## The handlers conform -/

section Conformity

variable {role : ShareRole}

theorem counterProtocol_quiet {c : Command} (h : c.quietCounter = true) :
    (counterProtocol role).Quiet c := by
  cases c with
  | mysqlQuery statement =>
    cases statement <;> first | exact ⟨fun _ => h, fun _ _ => rfl⟩ | cases h
  | processResultOne query save =>
    cases query <;> first | exact ⟨fun _ => h, fun _ _ => rfl⟩ | cases h
  | _ => exact ⟨fun _ => h, fun _ _ => rfl⟩

theorem conformsCounter_select {next : ResultOne → Handler Int}
    (hnone : Conforms store (counterProtocol role) (next .noRow) (.read none))
    (hsome : ∀ k, Conforms store (counterProtocol role) (next (.row (.int k))) (.read (some k))) :
    Conforms store (counterProtocol role)
      (.call (.processResultOne (.userFileCount shareCountUser) true) next) .untouched := by
  refine ⟨⟨rfl, rfl, rfl⟩, fun s => ?_⟩
  cases hcount : s.tables.userFileCount shareCountUser with
  | none =>
    have hreply : (store.exec (.processResultOne (.userFileCount shareCountUser) true) s).1 =
        .noRow := by simp [hcount]
    rw [hreply]
    exact hnone
  | some k =>
    have hreply : (store.exec (.processResultOne (.userFileCount shareCountUser) true) s).1 =
        .row (.int k) := by simp [hcount]
    rw [hreply]
    exact hsome k

theorem conformsCounter_failed {g : CounterStage} {ret : Int} (h : ret ≠ 0) :
    Conforms store (counterProtocol role) (.done ret) g := fun h0 => absurd h0 h

theorem conforms_raiseFileCount {f : Bool → Handler Int}
    (htrue : Conforms store (counterProtocol .share) (f true) .settled)
    (hfalse : ∀ g, Conforms store (counterProtocol .share) (f false) g) :
    Conforms store (counterProtocol .share) (raiseFileCount shareCountUser >>= f) .untouched := by
  refine conformsCounter_select ?_ fun k => ?_
  · refine ⟨⟨rfl, rfl, rfl, rfl⟩, fun s => ?_⟩
    cases (store.exec (.mysqlQuery (.insertUserFileCount shareCountUser 1)) s).1 with
    | true => exact htrue
    | false => exact hfalse _
  · exact ⟨⟨rfl, k, rfl, rfl⟩, fun s => htrue⟩

theorem conforms_lowerFileCount {k : Int} {f : Bool → Handler Int}
    (htrue : Conforms store (counterProtocol .cancel) (f true) .settled) :
    Conforms store (counterProtocol .cancel) (lowerFileCount k shareCountUser >>= f)
      (.read (some k)) := by
  rw [lowerFileCount]
  by_cases h1 : k = 1
  · rw [if_pos h1, h1]
    exact ⟨⟨rfl, rfl, rfl⟩, fun s => htrue⟩
  · rw [if_neg h1]
    exact ⟨⟨rfl, k, rfl, rfl⟩, fun s => htrue⟩

theorem conforms_shareFile (enc : Encoding) (now user md5 filename : CString) :
    Conforms store (counterProtocol .share) (shareFile enc now user md5 filename) .untouched := by
  refine Conforms.guard (p := ropConnectdbNopwd) ⟨counterProtocol_quiet rfl, fun _ => trivial⟩
    (conformsCounter_failed (by decide)) ?_
  refine Conforms.guard (p := msqlConn) ⟨counterProtocol_quiet rfl, fun _ => trivial⟩
    (conformsCounter_failed (by decide)) ?_
  refine Conforms.call_of_quiet (counterProtocol_quiet rfl) fun _ => ?_
  refine Conforms.bind_of_quiet (p := ropZsetExit _ _ enc) ?_ fun ret2 => ?_
  · exact ⟨counterProtocol_quiet rfl, fun r => by cases r <;> exact trivial⟩
  split
  · exact conformsCounter_failed (by decide)
  split
  · exact conformsCounter_failed (by decide)
  have hshare : Conforms store (counterProtocol .share) (do
      if !(← mysqlQuery (.updateSharedStatus 1 user md5 filename)) then return -1
      if !(← mysqlQuery (.insertShareFile user md5 now filename 0)) then return -1
      if !(← raiseFileCount shareCountUser) then return -1
      let _ ← ropZsetAdd FILE_PUBLIC_ZSET 0 (fileid md5 filename)
      let _ ← ropHashSet FILE_NAME_HASH (fileid md5 filename) filename
      return 0) .untouched := by
    refine Conforms.guard (p := mysqlQuery _) ⟨counterProtocol_quiet rfl, fun _ => trivial⟩
      (conformsCounter_failed (by decide)) ?_
    refine Conforms.guard (p := mysqlQuery _) ⟨counterProtocol_quiet rfl, fun _ => trivial⟩
      (conformsCounter_failed (by decide)) ?_
    refine conforms_raiseFileCount ?_ fun g => conformsCounter_failed (by decide)
    refine Conforms.call_of_quiet (counterProtocol_quiet rfl) fun _ => ?_
    refine Conforms.call_of_quiet (counterProtocol_quiet rfl) fun r => ?_
    cases r <;> exact fun _ => rfl
  refine Conforms.call_of_quiet (counterProtocol_quiet rfl) fun found => ?_
  cases found with
  | notSaved =>
    refine Conforms.call_of_quiet (counterProtocol_quiet rfl) fun _ => ?_
    exact conformsCounter_failed (by decide)
  | _ => exact hshare

theorem conforms_cancelShareFile (user md5 filename : CString) :
    Conforms store (counterProtocol .cancel) (cancelShareFile user md5 filename) .untouched := by
  refine Conforms.guard (p := ropConnectdbNopwd) ⟨counterProtocol_quiet rfl, fun _ => trivial⟩
    (conformsCounter_failed (by decide)) ?_
  refine Conforms.guard (p := msqlConn) ⟨counterProtocol_quiet rfl, fun _ => trivial⟩
    (conformsCounter_failed (by decide)) ?_
  refine Conforms.call_of_quiet (counterProtocol_quiet rfl) fun _ => ?_
  refine Conforms.guard (p := mysqlQuery _) ⟨counterProtocol_quiet rfl, fun _ => trivial⟩
    (conformsCounter_failed (by decide)) ?_
  refine conformsCounter_select (conformsCounter_failed (by decide)) fun k => ?_
  refine conforms_lowerFileCount ?_
  refine Conforms.guard (p := mysqlQuery _) ⟨counterProtocol_quiet rfl, fun _ => trivial⟩
    (conformsCounter_failed (by decide)) ?_
  refine Conforms.bind_of_quiet (p := ropZsetZrem _ _) ⟨counterProtocol_quiet rfl, fun _ => trivial⟩
    fun ret => ?_
  split
  · exact fun _ => rfl
  · refine Conforms.call_of_quiet (counterProtocol_quiet rfl) fun _ => ?_
    exact fun _ => rfl

end Conformity

/-! ## The invariant of a pool -/

section Balance

variable {ι : Type} [Fintype ι]

/-- The counter is the initial one with the writes so far, and what a request has read is
still so. -/
structure CounterBalanced (roles : ι → ShareRole) (initial : Int) (stages : ι → CounterStage)
    (active : ι → Prop) (t : Tables) : Prop where
  total : t.shareCount = initial + ∑ i, (roles i).counted (stages i)
  fresh : ∀ i value, active i → stages i = .read value → t.userFileCount shareCountUser = value

namespace CounterBalanced

variable {roles : ι → ShareRole} {initial : Int} {stages : ι → CounterStage}
variable {active active' : ι → Prop} {t : Tables} {i : ι}

theorem congr (h : CounterBalanced roles initial stages active t) {t' : Tables}
    (hcount : t'.userFileCount = t.userFileCount) (hactive : ∀ j, active' j → active j) :
    CounterBalanced roles initial stages active' t' where
  total := by
    rw [Tables.shareCount, hcount]
    exact h.total
  fresh j value hj := by
    rw [hcount]
    exact h.fresh j value (hactive j hj)

section Steps

variable [DecidableEq ι] (h : CounterBalanced roles initial stages active t)
  (hactive : ∀ j, j ≠ i → active' j → active j)
include h hactive

theorem read (hstage : stages i = .untouched) :
    CounterBalanced roles initial
      (Function.update stages i (.read (t.userFileCount shareCountUser))) active' t where
  total := by
    rw [Pool.sum_update (fun j => (roles j).counted)]
    simpa [ShareRole.counted, hstage] using h.total
  fresh j value hj hread := by
    by_cases hji : j = i
    · subst hji
      rw [Function.update_self] at hread
      cases hread
      rfl
    · rw [Function.update_of_ne hji] at hread
      exact h.fresh j value (hactive j hji hj) hread

theorem write {value : Option Int} (hstage : stages i = .read value) {t' : Tables}
    (hvalue : t'.shareCount = t.shareCount + (roles i).delta)
    (halone : ∀ j, j ≠ i → active j → (stages j).inside = false) :
    CounterBalanced roles initial (Function.update stages i .settled) active' t' where
  total := by
    rw [Pool.sum_update (fun j => (roles j).counted), hvalue, h.total]
    simp [ShareRole.counted, hstage]
    omega
  fresh j value hj hread := by
    by_cases hji : j = i
    · subst hji
      simp at hread
    · rw [Function.update_of_ne hji] at hread
      have := halone j hji (hactive j hji hj)
      rw [hread] at this
      cases this

end Steps

end CounterBalanced

variable [DecidableEq ι]

abbrev SharePool (ι : Type) := Pool ι Command Reply Int CounterStage Store

def Command.writesCounter : Command → Bool
  | .mysqlQuery (.insertUserFileCount _ _) | .mysqlQuery (.updateUserFileCount _ _)
  | .mysqlQuery (.deleteUserFileCount _) => true
  | _ => false

/-- Nobody writes the counter while somebody else has read it and not written it yet. -/
def exclusiveCounter (P : SharePool ι) (i : ι) : Prop :=
  P.Exclusive Command.writesCounter CounterStage.inside i

instance (P : SharePool ι) (i : ι) : Decidable (exclusiveCounter P i) :=
  inferInstanceAs (Decidable (P.Exclusive Command.writesCounter CounterStage.inside i))

theorem counterProtocol_cases {role : ShareRole} {g : CounterStage} {c : Command}
    (h : (counterProtocol role).allowed g c) :
    c.quietCounter = true ∨
    (c = .processResultOne (.userFileCount shareCountUser) true ∧ g = .untouched) ∨
    (c = .mysqlQuery (.insertUserFileCount shareCountUser 1) ∧ role = .share ∧ g = .read none) ∨
    (∃ k, c = .mysqlQuery (.updateUserFileCount (k + role.delta) shareCountUser) ∧
      g = .read (some k)) ∨
    (c = .mysqlQuery (.deleteUserFileCount shareCountUser) ∧ role = .cancel ∧
      g = .read (some 1)) := by
  cases c with
  | processResultOne query save =>
    cases query with
    | userFileCount user =>
      obtain ⟨rfl, rfl, hstage⟩ := h
      exact .inr (.inl ⟨rfl, hstage⟩)
    | _ => exact .inl h
  | mysqlQuery statement =>
    cases statement with
    | insertUserFileCount user count =>
      obtain ⟨rfl, hrole, hstage, rfl⟩ := h
      exact .inr (.inr (.inl ⟨rfl, hrole, hstage⟩))
    | updateUserFileCount count user =>
      obtain ⟨rfl, k, hstage, rfl⟩ := h
      exact .inr (.inr (.inr (.inl ⟨k, rfl, hstage⟩)))
    | deleteUserFileCount user =>
      obtain ⟨rfl, hrole, hstage⟩ := h
      exact .inr (.inr (.inr (.inr ⟨rfl, hrole, hstage⟩)))
    | _ => exact .inl h
  | _ => exact .inl h

theorem userFileCount_quiet {c : Command} (h : c.quietCounter = true) (s : Store) :
    (Store.exec c s).2.tables.userFileCount = s.tables.userFileCount := by
  cases c with
  | mysqlQuery statement =>
    cases statement with
    | insertUserFileCount | updateUserFileCount | deleteUserFileCount => cases h
    | insertFileInfo md5 fileId url size type count =>
      cases hinfo : s.tables.fileInfo md5 <;> simp [hinfo]
    | insertUser row =>
      by_cases hdup : s.tables.user.any fun r => r.name = row.name || r.nickname = row.nickname
      · simp only [Store.exec, Statement.apply, if_pos hdup]
      · simp only [Store.exec, Statement.apply, if_neg hdup]
    | _ => rfl
  | _ => rfl

def SharePool.Balanced (roles : ι → ShareRole) (initial : Int) (P : SharePool ι) : Prop :=
  CounterBalanced roles initial P.stages (fun j => (P.procs j).running = true) P.store.tables

theorem SharePool.balanced_step {roles : ι → ShareRole} {initial : Int}
    (P : SharePool ι) (i : ι) (c : Command) (next : Reply c → Handler Int)
    (hp : P.procs i = .call c next)
    (hallowed : (counterProtocol (roles i)).allowed (P.stages i) c)
    (hok : exclusiveCounter P i) (h : SharePool.Balanced roles initial P) :
    SharePool.Balanced roles initial (P.step store (fun i => counterProtocol (roles i)) i) := by
  have hactive : ∀ j, j ≠ i →
      ((P.step store (fun i => counterProtocol (roles i)) i).procs j).running = true →
        (P.procs j).running = true := fun j hj => Pool.running_of_step hj
  have hrunning : (P.procs i).running = true := by
    rw [hp]
    rfl
  have halone := Pool.Exclusive.alone hok hp
  rw [SharePool.Balanced] at h ⊢
  rw [Pool.step_of_call hp] at hactive ⊢
  rcases counterProtocol_cases hallowed with hquiet | ⟨rfl, hstage⟩ | ⟨rfl, hrole, hstage⟩ |
    ⟨k, rfl, hstage⟩ | ⟨rfl, hrole, hstage⟩
  · have hnext : (counterProtocol (roles i)).next (P.stages i) c
        (store.exec c P.store).1 = P.stages i := (counterProtocol_quiet hquiet).next _ _
    simp only [hnext, Function.update_eq_self]
    refine h.congr (userFileCount_quiet hquiet P.store) fun j hj => ?_
    by_cases hji : j = i
    · exact hji ▸ hrunning
    · exact hactive j hji hj
  · have hnext : (counterProtocol (roles i)).next (P.stages i)
        (.processResultOne (.userFileCount shareCountUser) true)
        (store.exec (.processResultOne (.userFileCount shareCountUser) true) P.store).1 =
        .read (P.store.tables.userFileCount shareCountUser) := by
      cases hvalue : P.store.tables.userFileCount shareCountUser <;>
        simp [counterProtocol, hvalue]
    simp only [hnext]
    exact h.read hactive hstage
  · have hvalue := h.fresh i none hrunning hstage
    have hexec : store.exec (.mysqlQuery (.insertUserFileCount shareCountUser 1)) P.store =
        (true, { P.store with tables := P.store.tables.setCount shareCountUser 1 }) := by
      simp [hvalue, Tables.setCount]
    simp only [hexec] at hactive ⊢
    refine h.write hactive hstage ?_ (halone rfl)
    simp [Tables.shareCount, Tables.setCount, hvalue, hrole, ShareRole.delta]
  · have hvalue := h.fresh i (some k) hrunning hstage
    refine h.write hactive hstage ?_ (halone rfl)
    simp [Tables.shareCount, hvalue]
  · have hvalue := h.fresh i (some 1) hrunning hstage
    refine h.write hactive hstage ?_ (halone rfl)
    simp [Tables.shareCount, hvalue, hrole, ShareRole.delta]

def Request.shareRole : Request → Option ShareRole
  | .shareFile .. => some .share
  | .cancelShareFile .. => some .cancel
  | _ => none

theorem conforms_of_shareRole {r : Request} {role : ShareRole} (h : r.shareRole = some role) :
    Conforms store (counterProtocol role) r.handler .untouched := by
  cases r with
  | shareFile enc now user md5 filename =>
    cases h
    exact conforms_shareFile enc now user md5 filename
  | cancelShareFile user md5 filename =>
    cases h
    exact conforms_cancelShareFile user md5 filename
  | _ => cases h

/-- The pool after a schedule, each request followed by its protocol. -/
def runShareRequests (requests : ι → Request) (roles : ι → ShareRole) (s : Store)
    (schedule : List ι) : SharePool ι :=
  (Pool.start (fun i => counterProtocol (roles i)) (fun i => (requests i).handler) s).run
    store (fun i => counterProtocol (roles i)) schedule

/-- Every write of the counter on the schedule is exclusive. -/
def ExclusiveCounter (requests : ι → Request) (roles : ι → ShareRole) (s : Store)
    (schedule : List ι) : Prop :=
  (Pool.start (fun i => counterProtocol (roles i)) (fun i => (requests i).handler) s).Obeys
    store (fun i => counterProtocol (roles i)) exclusiveCounter schedule

instance (requests : ι → Request) (roles : ι → ShareRole) (s : Store) (schedule : List ι) :
    Decidable (ExclusiveCounter requests roles s schedule) :=
  inferInstanceAs (Decidable (Pool.Obeys ..))

section Runs

variable {requests : ι → Request} {roles : ι → ShareRole} {s : Store} {schedule : List ι}
  (h : ∀ i, (requests i).shareRole = some (roles i))
  (hexclusive : ExclusiveCounter requests roles s schedule)
include h hexclusive

theorem shareRequests_balanced :
    (runShareRequests requests roles s schedule).Conforming store
        (fun i => counterProtocol (roles i)) ∧
      SharePool.Balanced roles s.tables.shareCount
        (runShareRequests requests roles s schedule) := by
  refine Pool.invariant SharePool.balanced_step (fun i => conforms_of_shareRole (h i)) ?_ hexclusive
  refine ⟨?_, fun i value _ hread => ?_⟩
  · simp [Pool.start, counterProtocol, ShareRole.counted]
  · cases hread

/-- The counter moves by the requests that have succeeded, when all that have written it have. -/
theorem shareCount_of_settled
    (hsucceeded : ∀ i, (runShareRequests requests roles s schedule).stages i = .settled →
      ((runShareRequests requests roles s schedule).procs i).result = some 0) :
    (runShareRequests requests roles s schedule).store.tables.shareCount =
      s.tables.shareCount +
        (Finset.univ.filter fun i => roles i = .share ∧
          ((runShareRequests requests roles s schedule).procs i).result = some 0).card -
        (Finset.univ.filter fun i => roles i ≠ .share ∧
          ((runShareRequests requests roles s schedule).procs i).result = some 0).card := by
  obtain ⟨hconf, hbalanced⟩ := shareRequests_balanced h hexclusive
  have hcounted : ∀ i, (roles i).counted
      ((runShareRequests requests roles s schedule).stages i) =
        if ((runShareRequests requests roles s schedule).procs i).result = some 0 then
          if roles i = .share then 1 else -1 else 0 := by
    intro i
    rw [ShareRole.counted]
    split
    · next hsettled =>
      rw [if_pos (hsucceeded i hsettled)]
      cases roles i <;> rfl
    · next hopen =>
      rw [if_neg fun hresult => hopen (hconf.final (eq_done hresult) rfl)]
  rw [hbalanced.total, Finset.sum_congr rfl fun i _ => hcounted i, ← Finset.sum_filter,
    Pool.sum_signs, Finset.filter_filter, Finset.filter_filter]
  simp only [and_comm]
  exact (add_sub_assoc ..).symm

end Runs

end Balance

end HfDfs
