import Mathlib.Algebra.Order.BigOperators.Group.Finset
import HfDfs.Library.Interleaving
import HfDfs.Properties.Files

/-!
# Interleaved requests and the reference count

`deal_md5`, `save_file` and `del_file` read the reference count of a file
with one statement and write it back with another. The count comes out
right when no request writes it while another one is between its own read
and its last write.
-/

namespace HfDfs

set_option autoImplicit false

open Procedures Procedures.Procedure Zlexcount

/-! ## The protocol of a request -/

/-- How far a request is with the count. A deletion that has written 0 still has the
record to delete. -/
inductive CountStage where
  | untouched
  | read (count : Int)
  | emptied
  | settled
deriving DecidableEq, Repr

def CountStage.inside : CountStage → Bool
  | .read _ | .emptied => true
  | .untouched | .settled => false

/-- `row`: the row of the file list has been inserted or deleted. -/
structure Progress where
  count : CountStage
  row : Bool
deriving DecidableEq, Repr

inductive Role where
  | add
  | del (user filename : CString)
deriving DecidableEq, Repr

namespace Role

def delta : Role → Int
  | add => 1
  | del _ _ => -1

/-- What the request has done to the count so far. -/
def counted : Role → Progress → Int
  | add, g => if g.count = .settled then 1 else 0
  | del _ _, g => if g.count = .settled ∨ g.count = .emptied then -1 else 0

/-- What it has done to the number of rows. -/
def listed (role : Role) (g : Progress) : Int := if g.row then role.delta else 0

/-- The stage behind a write of the count. -/
def afterWrite (role : Role) (count : Int) : CountStage :=
  match role with
  | add => .settled
  | del _ _ => if count = 0 then .emptied else .settled

theorem counted_afterWrite (role : Role) (count : Int) (row : Bool) :
    role.counted ⟨role.afterWrite count, row⟩ = role.delta := by
  cases role with
  | add => rfl
  | del user filename =>
    by_cases h0 : count = 0
    · simp [counted, afterWrite, delta, h0]
    · simp [counted, afterWrite, delta, h0]

theorem counted_of_before {role : Role} {g : Progress} (hsettled : g.count ≠ .settled)
    (hemptied : g.count ≠ .emptied) : role.counted g = 0 := by
  cases role <;> simp [counted, hsettled, hemptied]

theorem afterWrite_ne_read (role : Role) (count k : Int) : role.afterWrite count ≠ .read k := by
  cases role with
  | add => simp [afterWrite]
  | del user filename =>
    rw [afterWrite]
    split <;> simp

theorem eq_zero_of_afterWrite {role : Role} {count : Int}
    (h : role.afterWrite count = .emptied) : count = 0 := by
  cases role with
  | add => cases h
  | del user filename =>
    rw [afterWrite] at h
    split at h
    · assumption
    · cases h

end Role

/-- Neither the count nor the file list is involved. -/
def Command.quiet : Command → Bool
  | .processResultOne (.fileInfoCount _) _ => false
  | .fdfsUploadFile _ | .removeFileFromStorage _ => true
  | c => c.keepsFiles

def fileProtocol (md5 : CString) (role : Role) : Protocol Command Reply Int Progress where
  start := ⟨.untouched, false⟩
  next g c r :=
    match c, r with
    | .processResultOne (.fileInfoCount _) _, .row tmp => { g with count := .read tmp.atoi }
    | .mysqlQuery (.updateFileInfoCount count _), true => { g with count := role.afterWrite count }
    | .mysqlQuery (.deleteFileInfo _), true => { g with count := .settled }
    | .mysqlQuery (.insertUserFile _ _ _ _ _ _), true => { g with row := true }
    | .mysqlQuery (.deleteUserFile _ _ _), true => { g with row := true }
    | _, _ => g
  allowed g c :=
    match c with
    | .processResultOne (.fileInfoCount m) _ => m = md5 ∧ g.count = .untouched
    | .mysqlQuery (.updateFileInfoCount count m) =>
      m = md5 ∧ ∃ k, g.count = .read k ∧ count = k + role.delta ∧ (g.row = true ↔ role ≠ .add)
    | .mysqlQuery (.deleteFileInfo m) => m = md5 ∧ role ≠ .add ∧ g.count = .emptied
    | .mysqlQuery (.insertUserFile _ m _ _ _ _) =>
      m = md5 ∧ role = .add ∧ g.count = .settled ∧ g.row = false
    | .mysqlQuery (.deleteUserFile user m filename) =>
      m = md5 ∧ role = .del user filename ∧ g.count = .untouched ∧ g.row = false
    | c => c.quiet = true
  final g ret := ret = 0 → g.count = .settled ∧ g.row = true

/-! ## The handlers conform -/

section Conformity

variable {md5 : CString} {role : Role}

theorem fileProtocol_quiet {c : Command} (h : c.quiet = true) : (fileProtocol md5 role).Quiet c := by
  cases c with
  | mysqlQuery statement =>
    cases statement <;> first | exact ⟨fun _ => h, fun _ _ => rfl⟩ | cases h
  | processResultOne query save =>
    cases query <;> first | exact ⟨fun _ => h, fun _ _ => rfl⟩ | cases h
  | _ => exact ⟨fun _ => h, fun _ _ => rfl⟩

theorem fileProtocol_quiet_of_countCommand {user : CString} {c : Command}
    (h : CountCommand user c) : (fileProtocol md5 role).Quiet c := by
  cases h <;> exact fileProtocol_quiet rfl

theorem raiseFileCount_quiet (user : CString) :
    (raiseFileCount user).Issues (fileProtocol md5 role).Quiet :=
  (issues_raiseFileCount user).mono fun _ => fileProtocol_quiet_of_countCommand

theorem lowerFileCount_quiet (count : Int) (user : CString) :
    (lowerFileCount count user).Issues (fileProtocol md5 role).Quiet :=
  (issues_lowerFileCount user count).mono fun _ => fileProtocol_quiet_of_countCommand

theorem ropZsetExit_quiet (key member : CString) (enc : Encoding) :
    (ropZsetExit key member enc).Issues (fileProtocol md5 role).Quiet := by
  refine (ropZsetExit_issuesRedis enc key member).mono ?_
  rintro c ⟨command, rfl⟩
  exact fileProtocol_quiet rfl

theorem delShareFile_quiet (flag : Bool) (user m filename : CString) :
    (delShareFile flag user m filename).Issues (fileProtocol md5 role).Quiet := by
  refine (delShareFile_issuesUnshare user m filename flag).mono fun c hc => ?_
  cases hc with
  | redis command => exact fileProtocol_quiet rfl
  | count h => exact fileProtocol_quiet_of_countCommand h
  | deleteShareFile => exact fileProtocol_quiet rfl

theorem conforms_failed {g : Progress} {ret : Int} (h : ret ≠ 0) :
    Conforms store (fileProtocol md5 role) (.done ret) g := fun h0 => absurd h0 h

theorem conforms_fileInfoCount {next : ResultOne → Handler Int} {row : Bool}
    (hnone : Conforms store (fileProtocol md5 role) (next .noRow) ⟨.untouched, row⟩)
    (hsome : ∀ k, Conforms store (fileProtocol md5 role) (next (.row (.int k))) ⟨.read k, row⟩) :
    Conforms store (fileProtocol md5 role)
      (.call (.processResultOne (.fileInfoCount md5) true) next) ⟨.untouched, row⟩ := by
  refine ⟨⟨rfl, rfl⟩, fun s => ?_⟩
  cases hinfo : s.tables.fileInfo md5 with
  | none =>
    have hreply : (store.exec (.processResultOne (.fileInfoCount md5) true) s).1 = .noRow := by
      simp [hinfo]
    rw [hreply]
    exact hnone
  | some info =>
    have hreply : (store.exec (.processResultOne (.fileInfoCount md5) true) s).1 =
        .row (.int info.count) := by simp [hinfo]
    rw [hreply]
    exact hsome info.count

theorem conforms_addReference (k : Int) (now user filename : CString) :
    Conforms store (fileProtocol md5 .add) (addReference k now user md5 filename)
      ⟨.read k, false⟩ := by
  refine ⟨⟨rfl, k, rfl, rfl, by simp⟩, fun _ => ⟨⟨rfl, rfl, rfl, rfl⟩, fun _ => ?_⟩⟩
  change Conforms store _ (raiseFileCount user >>= fun raised => if !raised then _ else _) _
  refine Conforms.bind_of_quiet (raiseFileCount_quiet user) fun raised => ?_
  cases raised with
  | false => exact conforms_failed (by decide)
  | true => exact fun _ => ⟨rfl, rfl⟩

theorem conforms_dealMd5 (now user filename : CString) :
    Conforms store (fileProtocol md5 .add) (dealMd5 now user md5 filename)
      ⟨.untouched, false⟩ := by
  refine Conforms.guard (p := msqlConn) ⟨fileProtocol_quiet rfl, fun _ => trivial⟩
    (conforms_failed (by decide)) ?_
  refine Conforms.call_of_quiet (fileProtocol_quiet rfl) fun _ => ?_
  refine conforms_fileInfoCount (conforms_failed (by decide)) fun k => ?_
  refine Conforms.call_of_quiet (fileProtocol_quiet rfl) fun found => ?_
  cases found with
  | notSaved => exact conforms_failed (by decide)
  | _ => exact conforms_addReference k now user filename

theorem conforms_saveFile (now user filename : CString) :
    Conforms store (fileProtocol md5 .add) (saveFile now user md5 filename)
      ⟨.untouched, false⟩ := by
  refine Conforms.guard (p := msqlConn) ⟨fileProtocol_quiet rfl, fun _ => trivial⟩
    (conforms_failed (by decide)) ?_
  refine Conforms.call_of_quiet (fileProtocol_quiet rfl) fun _ => ?_
  refine Conforms.call_of_quiet (fileProtocol_quiet rfl) fun found => ?_
  cases found with
  | notSaved => exact conforms_failed (by decide)
  | failed | noRow | row buf =>
    exact conforms_fileInfoCount (conforms_failed (by decide)) fun k =>
      conforms_addReference k now user filename

theorem conforms_delFileInfo (user filename : CString) :
    Conforms store (fileProtocol md5 (.del user filename)) (delFileInfo md5)
      ⟨.untouched, true⟩ := by
  refine conforms_fileInfoCount (conforms_failed (by decide)) fun k => ?_
  refine ⟨⟨rfl, k, rfl, rfl, by simp⟩, fun _ => ?_⟩
  by_cases h0 : k - 1 = 0
  · change Conforms store _ (if (k - 1 : Int) ≠ 0 then _ else _)
      (Progress.mk (if (k - 1 : Int) = 0 then _ else _) true)
    rw [if_neg (not_not.mpr h0), if_pos h0]
    refine Conforms.call_of_quiet (fileProtocol_quiet rfl) fun found => ?_
    cases found with
    | row tmp =>
      refine ⟨⟨rfl, by simp, rfl⟩, fun _ => Conforms.call_of_quiet (fileProtocol_quiet rfl) fun removed => ?_⟩
      cases removed with
      | false => exact conforms_failed (by decide)
      | true => exact fun _ => ⟨rfl, rfl⟩
    | _ => exact conforms_failed (by decide)
  · change Conforms store _ (if (k - 1 : Int) ≠ 0 then _ else _)
      (Progress.mk (if (k - 1 : Int) = 0 then _ else _) true)
    rw [if_pos h0, if_neg h0]
    exact fun _ => ⟨rfl, rfl⟩

theorem conforms_delUserFile (user filename : CString) :
    Conforms store (fileProtocol md5 (.del user filename)) (delUserFile user md5 filename)
      ⟨.untouched, false⟩ := by
  refine Conforms.call_of_quiet (fileProtocol_quiet rfl) fun found => ?_
  cases found with
  | row tmp =>
    refine Conforms.bind_of_quiet (p := lowerFileCount tmp.atoi user)
      (lowerFileCount_quiet tmp.atoi user) fun lowered => ?_
    cases lowered with
    | false => exact conforms_failed (by decide)
    | true => exact ⟨⟨rfl, rfl, rfl, rfl⟩, fun _ => conforms_delFileInfo user filename⟩
  | _ => exact conforms_failed (by decide)

theorem conforms_delRecords (share : Int) (flag : Bool) (user filename : CString) :
    Conforms store (fileProtocol md5 (.del user filename))
      (delRecords share flag user md5 filename) ⟨.untouched, false⟩ := by
  rw [delRecords]
  split
  · refine Conforms.bind_of_quiet (delShareFile_quiet flag user md5 filename) fun removed => ?_
    cases removed with
    | false => exact conforms_failed (by decide)
    | true => exact conforms_delUserFile user filename
  · exact conforms_delUserFile user filename

theorem conforms_delFile (enc : Encoding) (user filename : CString) :
    Conforms store (fileProtocol md5 (.del user filename)) (delFile enc user md5 filename)
      ⟨.untouched, false⟩ := by
  refine Conforms.guard (p := ropConnectdbNopwd) ⟨fileProtocol_quiet rfl, fun _ => trivial⟩
    (conforms_failed (by decide)) ?_
  refine Conforms.guard (p := msqlConn) ⟨fileProtocol_quiet rfl, fun _ => trivial⟩
    (conforms_failed (by decide)) ?_
  refine Conforms.call_of_quiet (fileProtocol_quiet rfl) fun _ => ?_
  refine Conforms.bind_of_quiet (p := ropZsetExit _ _ enc) (ropZsetExit_quiet ..) fun ret2 => ?_
  split
  · exact conforms_delRecords 1 true user filename
  split
  · refine Conforms.call_of_quiet (fileProtocol_quiet rfl) fun status => ?_
    cases status with
    | row tmp => exact conforms_delRecords tmp.atoi false user filename
    | failed => exact conforms_failed (by decide)
    | noRow => exact conforms_delRecords 0 false user filename
    | notSaved => exact conforms_delRecords 0 false user filename
  · exact conforms_failed (by decide)

end Conformity

/-! ## The invariant of a pool -/

section Balance

variable {ι : Type} [Fintype ι]

/-- `count` is the initial count with the writes so far, the rows are at most the initial
ones with the insertions and deletions so far, and what a request has read is still so. -/
structure Balanced (md5 : CString) (roles : ι → Role) (initial : Int) (stages : ι → Progress)
    (active : ι → Prop) (F : Files) : Prop where
  total : (F.counts md5).getD 0 = initial + ∑ i, (roles i).counted (stages i)
  rows : (F.rows.countP (·.md5 = md5) : Int) ≤ initial + ∑ i, (roles i).listed (stages i)
  fresh : ∀ i k, active i → (stages i).count = .read k → F.counts md5 = some k
  zero : ∀ i, active i → (stages i).count = .emptied → (F.counts md5).getD 0 = 0
  order : ∀ i, (roles i).listed (stages i) ≤ (roles i).counted (stages i)
  owned : ∀ i user filename, roles i = .del user filename → (stages i).row = false →
    F.rows.any (·.is user md5 filename) = true

namespace Balanced

variable {md5 : CString} {roles : ι → Role} {initial : Int} {stages : ι → Progress}
variable {active active' : ι → Prop} {F : Files} {i : ι}

theorem rows_le (h : Balanced md5 roles initial stages active F) :
    (F.rows.countP (·.md5 = md5) : Int) ≤ (F.counts md5).getD 0 := by
  have hsum : ∑ i, (roles i).listed (stages i) ≤ ∑ i, (roles i).counted (stages i) :=
    Finset.sum_le_sum fun i _ => h.order i
  have := h.rows
  have := h.total
  omega

theorem congr (h : Balanced md5 roles initial stages active F) {F' : Files}
    (hinfo : F'.fileInfo = F.fileInfo) (hrows : F'.rows = F.rows)
    (hactive : ∀ j, active' j → active j) :
    Balanced md5 roles initial stages active' F' where
  total := by
    rw [Files.counts, hinfo]
    exact h.total
  rows := by
    rw [hrows]
    exact h.rows
  fresh j k hj := by
    rw [Files.counts, hinfo]
    exact h.fresh j k (hactive j hj)
  zero j hj := by
    rw [Files.counts, hinfo]
    exact h.zero j (hactive j hj)
  order := h.order
  owned := by
    rw [hrows]
    exact h.owned

/-- The stepping request moves to the stage `g` and the files become `F'`. What it has
read is its own affair; the others' readings have to survive. -/
theorem step [DecidableEq ι] (h : Balanced md5 roles initial stages active F) {F' : Files}
    {g : Progress}
    (hactive : ∀ j, j ≠ i → active' j → active j)
    (htotal : (F'.counts md5).getD 0 - (F.counts md5).getD 0 =
      (roles i).counted g - (roles i).counted (stages i))
    (hrows : (F'.rows.countP (·.md5 = md5) : Int) - F.rows.countP (·.md5 = md5) ≤
      (roles i).listed g - (roles i).listed (stages i))
    (hown : ∀ k, g.count = .read k → F'.counts md5 = some k)
    (hzero : g.count = .emptied → (F'.counts md5).getD 0 = 0)
    (hothers : F'.counts md5 = F.counts md5 ∨
      ∀ j, j ≠ i → active j → (stages j).count.inside = false)
    (horder : (roles i).listed g ≤ (roles i).counted g)
    (howned : ∀ j user filename, roles j = .del user filename →
      (Function.update stages i g j).row = false → F.rows.any (·.is user md5 filename) = true →
        F'.rows.any (·.is user md5 filename) = true)
    (hrow : (stages i).row = true → g.row = true) :
    Balanced md5 roles initial (Function.update stages i g) active' F' where
  total := by
    rw [Pool.sum_update (fun j => (roles j).counted)]
    have := h.total
    omega
  rows := by
    rw [Pool.sum_update (fun j => (roles j).listed)]
    have := h.rows
    omega
  fresh j k hj hread := by
    by_cases hji : j = i
    · subst hji
      rw [Function.update_self] at hread
      exact hown k hread
    · rw [Function.update_of_ne hji] at hread
      rcases hothers with hsame | hnone
      · rw [hsame]
        exact h.fresh j k (hactive j hji hj) hread
      · have := hnone j hji (hactive j hji hj)
        rw [hread] at this
        cases this
  zero j hj hemptied := by
    by_cases hji : j = i
    · subst hji
      rw [Function.update_self] at hemptied
      exact hzero hemptied
    · rw [Function.update_of_ne hji] at hemptied
      rcases hothers with hsame | hnone
      · rw [hsame]
        exact h.zero j (hactive j hji hj) hemptied
      · have := hnone j hji (hactive j hji hj)
        rw [hemptied] at this
        cases this
  order j := by
    by_cases hji : j = i
    · subst hji
      rwa [Function.update_self]
    · rw [Function.update_of_ne hji]
      exact h.order j
  owned j user filename hrole hfalse := by
    refine howned j user filename hrole hfalse (h.owned j user filename hrole ?_)
    by_cases hji : j = i
    · subst hji
      rw [Function.update_self] at hfalse
      by_contra htrue
      rw [hrow (by simpa using htrue)] at hfalse
      cases hfalse
    · rwa [Function.update_of_ne hji] at hfalse

section Steps

variable [DecidableEq ι] (h : Balanced md5 roles initial stages active F)
  (hactive : ∀ j, j ≠ i → active' j → active j)
include h hactive

theorem read {k : Int} (hstage : (stages i).count = .untouched) (hk : F.counts md5 = some k) :
    Balanced md5 roles initial (Function.update stages i ⟨.read k, (stages i).row⟩) active' F := by
  have hcounted : (roles i).counted ⟨.read k, (stages i).row⟩ = (roles i).counted (stages i) := by
    rw [Role.counted_of_before (by simp) (by simp),
      Role.counted_of_before (by simp [hstage]) (by simp [hstage])]
  have hlisted : (roles i).listed ⟨.read k, (stages i).row⟩ = (roles i).listed (stages i) := rfl
  refine h.step hactive (by omega) (by omega) ?_ (by simp) (.inl rfl) ?_
    (fun _ _ _ _ _ h => h) id
  · intro k' hk'
    cases hk'
    exact hk
  · have := h.order i
    omega

theorem write (hi : active i) {k : Int} (hstage : (stages i).count = .read k)
    (hrow : (stages i).row = true ↔ roles i ≠ .add)
    (halone : ∀ j, j ≠ i → active j → (stages j).count.inside = false) :
    Balanced md5 roles initial
      (Function.update stages i
        ⟨(roles i).afterWrite (k + (roles i).delta), (stages i).row⟩) active'
      (F.setCount md5 (k + (roles i).delta)) := by
  have hk := h.fresh i k hi hstage
  obtain ⟨info, hinfo, -⟩ := Option.map_eq_some_iff.mp hk
  have hcount : (F.setCount md5 (k + (roles i).delta)).counts md5 =
      some (k + (roles i).delta) := by
    rw [Files.counts_setCount hinfo, Function.update_self]
  have hbefore : (roles i).counted (stages i) = 0 :=
    Role.counted_of_before (by simp [hstage]) (by simp [hstage])
  refine h.step hactive ?_ ?_ ?_ ?_ (.inr halone) ?_ (fun _ _ _ _ _ h => h) id
  · rw [hcount, hk, Option.getD_some, Option.getD_some, Role.counted_afterWrite]
    omega
  · simp [Files.setCount, Role.listed]
  · intro k' hk'
    exact absurd hk' (Role.afterWrite_ne_read _ _ _)
  · intro hemptied
    rw [hcount, Option.getD_some]
    exact Role.eq_zero_of_afterWrite hemptied
  · rw [Role.counted_afterWrite, Role.listed]
    cases hrole : roles i with
    | add => split <;> simp [Role.delta]
    | del user filename =>
      have : (stages i).row = true := hrow.mpr (by simp [hrole])
      simp [this]

theorem remove (hi : active i) (hrole : roles i ≠ .add) (hstage : (stages i).count = .emptied)
    (halone : ∀ j, j ≠ i → active j → (stages j).count.inside = false) :
    Balanced md5 roles initial (Function.update stages i ⟨.settled, (stages i).row⟩) active'
      (F.deleteInfo md5) := by
  have hzero := h.zero i hi hstage
  have hnone : (F.deleteInfo md5).counts md5 = none := by
    rw [Files.counts_deleteInfo, Function.update_self]
  have hcounted : (roles i).counted ⟨.settled, (stages i).row⟩ =
      (roles i).counted (stages i) := by
    cases hr : roles i with
    | add => exact absurd hr hrole
    | del user filename => simp [Role.counted, hstage]
  refine h.step hactive ?_ ?_ (by simp) (by simp) (.inr halone) ?_ (fun _ _ _ _ _ h => h) id
  · rw [hnone, hzero, hcounted]
    simp
  · simp [Files.deleteInfo, Role.listed]
  · have := h.order i
    rw [hcounted]
    exact this

theorem insert {row : UserFile} (hmd5 : row.md5 = md5) (hrole : roles i = .add)
    (hstage : (stages i).count = .settled) (hrow : (stages i).row = false) :
    Balanced md5 roles initial (Function.update stages i ⟨(stages i).count, true⟩) active'
      (F.append row) := by
  have hcounts : (F.append row).counts = F.counts := rfl
  refine h.step hactive ?_ ?_ ?_ ?_ (.inl rfl) ?_ ?_ (fun _ => rfl)
  · rw [hcounts, hrole]
    simp [Role.counted]
  · simp [Files.append, List.countP_append, hmd5, Role.listed, hrow, hrole, Role.delta]
  · intro k hk
    rw [hstage] at hk
    cases hk
  · intro hk
    rw [hstage] at hk
    cases hk
  · rw [hrole]
    simp [Role.listed, Role.counted, Role.delta, hstage]
  · intro j user filename _ _ hany
    simp [Files.append, hany]

theorem delete {user filename : CString} (hrole : roles i = .del user filename)
    (husers : ∀ j user' filename', roles j = .del user' filename' → j ≠ i → user' ≠ user)
    (hstage : (stages i).count = .untouched) (hrow : (stages i).row = false) :
    Balanced md5 roles initial (Function.update stages i ⟨(stages i).count, true⟩) active'
      (F.drop user md5 filename) := by
  have hlt := Files.countP_drop_lt (h.owned i user filename hrole hrow)
  refine h.step hactive ?_ ?_ ?_ ?_ (.inl rfl) ?_ ?_ (fun _ => rfl)
  · rw [hrole]
    simp [Role.counted, Files.counts, Files.drop]
  · simp only [Role.listed, hrow, hrole, Role.delta, if_true]
    simp only [Bool.false_eq_true, if_false]
    omega
  · intro k hk
    rw [hstage] at hk
    cases hk
  · intro hk
    rw [hstage] at hk
    cases hk
  · rw [hrole]
    simp [Role.listed, Role.counted, Role.delta, hstage]
  · -- the row of another user is not the one deleted
    intro j user' filename' hrole' hfalse hany
    have hji : j ≠ i := by
      rintro rfl
      simp at hfalse
    obtain ⟨r, hr, his⟩ := List.any_eq_true.mp hany
    refine List.any_eq_true.mpr ⟨r, List.mem_filter.mpr ⟨hr, ?_⟩, his⟩
    have hne : r.user ≠ user := by
      rw [(UserFile.is_iff.mp his).1]
      exact husers j user' filename' hrole' hji
    simp [UserFile.is, hne]

end Steps

end Balanced

/-! ## Pools of requests for one file -/

variable [DecidableEq ι]

abbrev FilePool (ι : Type) := Pool ι Command Reply Int Progress Store

def Command.writesFileInfo : Command → Bool
  | .mysqlQuery (.insertFileInfo _ _ _ _ _ _) | .mysqlQuery (.updateFileInfoCount _ _)
  | .mysqlQuery (.deleteFileInfo _) => true
  | _ => false

/-- Nobody writes the count while somebody else is between reading it and the last write. -/
def exclusiveFileInfo (P : FilePool ι) (i : ι) : Prop :=
  P.Exclusive Command.writesFileInfo (fun g => g.count.inside) i

instance (P : FilePool ι) (i : ι) : Decidable (exclusiveFileInfo P i) :=
  inferInstanceAs (Decidable (P.Exclusive Command.writesFileInfo (fun g => g.count.inside) i))

theorem fileProtocol_cases {md5 : CString} {role : Role} {g : Progress} {c : Command}
    (h : (fileProtocol md5 role).allowed g c) :
    c.quiet = true ∨
    (∃ save, c = .processResultOne (.fileInfoCount md5) save ∧ g.count = .untouched) ∨
    (∃ k, c = .mysqlQuery (.updateFileInfoCount (k + role.delta) md5) ∧ g.count = .read k ∧
      (g.row = true ↔ role ≠ .add)) ∨
    (c = .mysqlQuery (.deleteFileInfo md5) ∧ role ≠ .add ∧ g.count = .emptied) ∨
    (∃ user now filename status pv,
      c = .mysqlQuery (.insertUserFile user md5 now filename status pv) ∧ role = .add ∧
        g.count = .settled ∧ g.row = false) ∨
    (∃ user filename, c = .mysqlQuery (.deleteUserFile user md5 filename) ∧
      role = .del user filename ∧ g.count = .untouched ∧ g.row = false) := by
  cases c with
  | processResultOne query save =>
    cases query with
    | fileInfoCount m =>
      obtain ⟨rfl, hstage⟩ := h
      exact .inr (.inl ⟨save, rfl, hstage⟩)
    | _ => exact .inl h
  | mysqlQuery statement =>
    cases statement with
    | updateFileInfoCount count m =>
      obtain ⟨rfl, k, hstage, rfl, hrow⟩ := h
      exact .inr (.inr (.inl ⟨k, rfl, hstage, hrow⟩))
    | deleteFileInfo m =>
      obtain ⟨rfl, hrole, hstage⟩ := h
      exact .inr (.inr (.inr (.inl ⟨rfl, hrole, hstage⟩)))
    | insertUserFile user m now filename status pv =>
      obtain ⟨rfl, hrole, hstage, hrow⟩ := h
      exact .inr (.inr (.inr (.inr (.inl
        ⟨user, now, filename, status, pv, rfl, hrole, hstage, hrow⟩))))
    | deleteUserFile user m filename =>
      obtain ⟨rfl, hrole, hstage, hrow⟩ := h
      exact .inr (.inr (.inr (.inr (.inr ⟨user, filename, rfl, hrole, hstage, hrow⟩))))
    | _ => exact .inl h
  | _ => exact .inl h

theorem files_quiet {c : Command} (h : c.quiet = true) (s : Store) :
    (Store.exec c s).2.files.fileInfo = s.files.fileInfo ∧
      (Store.exec c s).2.files.rows = s.files.rows := by
  have hkeeps : c.keepsFiles = true → (Store.exec c s).2.files.fileInfo = s.files.fileInfo ∧
      (Store.exec c s).2.files.rows = s.files.rows := by
    intro hc
    rw [files_exec hc]
    exact ⟨rfl, rfl⟩
  cases c with
  | processResultOne | fdfsUploadFile | removeFileFromStorage => exact ⟨rfl, rfl⟩
  | _ => exact hkeeps h

/-- The count is taken down if there is one and it is copied. -/
theorem next_fileInfoCount (md5 : CString) (role : Role) (stage : Progress) (save : Bool)
    (s : Store) :
    (fileProtocol md5 role).next stage (.processResultOne (.fileInfoCount md5) save)
        (store.exec (.processResultOne (.fileInfoCount md5) save) s).1 = stage ∨
      ∃ k, s.files.counts md5 = some k ∧
        (fileProtocol md5 role).next stage (.processResultOne (.fileInfoCount md5) save)
          (store.exec (.processResultOne (.fileInfoCount md5) save) s).1 =
            ⟨.read k, stage.row⟩ := by
  cases hinfo : s.tables.fileInfo md5 <;> cases save <;>
    simp [fileProtocol, Files.counts, Store.files, hinfo]

def FilePool.Balanced (md5 : CString) (roles : ι → Role) (initial : Int) (P : FilePool ι) : Prop :=
  HfDfs.Balanced md5 roles initial P.stages (fun j => (P.procs j).running = true) P.store.files

theorem FilePool.balanced_step {md5 : CString} {roles : ι → Role} {initial : Int}
    (husers : ∀ i j user filename user' filename', roles i = .del user filename →
      roles j = .del user' filename' → j ≠ i → user' ≠ user)
    (P : FilePool ι) (i : ι) (c : Command) (next : Reply c → Handler Int)
    (hp : P.procs i = .call c next)
    (hallowed : (fileProtocol md5 (roles i)).allowed (P.stages i) c)
    (hok : exclusiveFileInfo P i) (h : FilePool.Balanced md5 roles initial P) :
    FilePool.Balanced md5 roles initial (P.step store (fun i => fileProtocol md5 (roles i)) i) := by
  have hactive : ∀ j, j ≠ i →
      ((P.step store (fun i => fileProtocol md5 (roles i)) i).procs j).running = true →
        (P.procs j).running = true := fun j hj => Pool.running_of_step hj
  have hrunning : (P.procs i).running = true := by
    rw [hp]
    rfl
  have hstill : ∀ j,
      ((P.step store (fun i => fileProtocol md5 (roles i)) i).procs j).running = true →
        (P.procs j).running = true := by
    intro j hj
    by_cases hji : j = i
    · exact hji ▸ hrunning
    · exact hactive j hji hj
  have halone := Pool.Exclusive.alone hok hp
  rw [FilePool.Balanced] at h ⊢
  rw [Pool.step_of_call hp] at hactive hstill ⊢
  rcases fileProtocol_cases hallowed with hquiet | ⟨save, rfl, hstage⟩ | ⟨k, rfl, hstage, hrow⟩ |
    ⟨rfl, hrole, hstage⟩ | ⟨user, now, filename, status, pv, rfl, hrole, hstage, hrow⟩ |
    ⟨user, filename, rfl, hrole, hstage, hrow⟩
  · have hfiles := files_quiet hquiet P.store
    have hstage : (fileProtocol md5 (roles i)).next (P.stages i) c
        (store.exec c P.store).1 = P.stages i := (fileProtocol_quiet hquiet).next _ _
    simp only [hstage, Function.update_eq_self]
    exact h.congr hfiles.1 hfiles.2 fun j hj => hstill j hj
  · -- the stage moves only if a row was found and its count copied
    rcases next_fileInfoCount md5 (roles i) (P.stages i) save P.store with hnext | ⟨k, hk, hnext⟩
    · simp only [hnext, Function.update_eq_self]
      exact h.congr rfl rfl hstill
    · simp only [hnext]
      exact h.read hactive hstage hk
  · exact h.write hactive hrunning hstage hrow (halone rfl)
  · exact h.remove hactive hrunning hrole hstage (halone rfl)
  · exact h.insert hactive rfl hrole hstage hrow
  · exact h.delete hactive hrole (fun j user' filename' hj hji => husers i j _ _ _ _ hrole hj hji)
      hstage hrow

/-- What a request does to the references to `md5`, if it is one of those that do. -/
def Request.fileRole (md5 : CString) : Request → Option Role
  | .dealMd5 _ _ m _ | .saveFile _ _ m _ => if m = md5 then some .add else none
  | .delFile _ user m filename => if m = md5 then some (.del user filename) else none
  | _ => none

def Request.user : Request → Option CString
  | .dealMd5 _ user _ _ | .saveFile _ user _ _ | .delFile _ user _ _ => some user
  | _ => none

theorem conforms_of_fileRole {md5 : CString} {r : Request} {role : Role}
    (h : r.fileRole md5 = some role) :
    Conforms store (fileProtocol md5 role) r.handler ⟨.untouched, false⟩ := by
  cases r with
  | dealMd5 now user m filename =>
    obtain ⟨rfl, rfl⟩ : m = md5 ∧ Role.add = role := by simpa [Request.fileRole] using h
    exact conforms_dealMd5 now user filename
  | saveFile now user m filename =>
    obtain ⟨rfl, rfl⟩ : m = md5 ∧ Role.add = role := by simpa [Request.fileRole] using h
    exact conforms_saveFile now user filename
  | delFile enc user m filename =>
    obtain ⟨rfl, rfl⟩ : m = md5 ∧ Role.del user filename = role := by
      simpa [Request.fileRole] using h
    exact conforms_delFile enc user filename
  | _ => cases h

theorem user_of_fileRole {md5 : CString} {r : Request} {user filename : CString}
    (h : r.fileRole md5 = some (.del user filename)) : r.user = some user := by
  cases r with
  | dealMd5 now u m f => simp [Request.fileRole] at h
  | saveFile now u m f => simp [Request.fileRole] at h
  | delFile enc u m f =>
    obtain ⟨-, rfl, -⟩ : m = md5 ∧ u = user ∧ f = filename := by simpa [Request.fileRole] using h
    rfl
  | _ => cases h

/-- Requests of different users for one file: they add a reference to `md5`, or delete a
row that their user has. -/
structure FileRequests (md5 : CString) (requests : ι → Request) (roles : ι → Role) (s : Store) :
    Prop where
  role : ∀ i, (requests i).fileRole md5 = some (roles i)
  users : Function.Injective fun i => (requests i).user
  owned : ∀ i user filename, roles i = .del user filename → s.tables.holds user md5 filename = true
  counted : (s.files.counts md5).getD 0 = s.tables.userFileList.countP (·.md5 = md5)

/-- The pool after a schedule, each request followed by its protocol. -/
def runFileRequests (md5 : CString) (requests : ι → Request) (roles : ι → Role) (s : Store)
    (schedule : List ι) : FilePool ι :=
  (Pool.start (fun i => fileProtocol md5 (roles i)) (fun i => (requests i).handler) s).run
    store (fun i => fileProtocol md5 (roles i)) schedule

/-- Every write of the reference count on the schedule is exclusive. -/
def ExclusiveFileInfo (md5 : CString) (requests : ι → Request) (roles : ι → Role) (s : Store)
    (schedule : List ι) : Prop :=
  (Pool.start (fun i => fileProtocol md5 (roles i)) (fun i => (requests i).handler) s).Obeys
    store (fun i => fileProtocol md5 (roles i)) exclusiveFileInfo schedule

instance (md5 : CString) (requests : ι → Request) (roles : ι → Role) (s : Store)
    (schedule : List ι) : Decidable (ExclusiveFileInfo md5 requests roles s schedule) :=
  inferInstanceAs (Decidable (Pool.Obeys _ _ _ _ _))

section Runs

variable {md5 : CString} {requests : ι → Request} {roles : ι → Role} {s : Store}
  {schedule : List ι} (h : FileRequests md5 requests roles s)
  (hexclusive : ExclusiveFileInfo md5 requests roles s schedule)
include h hexclusive

theorem FileRequests.balanced :
    (runFileRequests md5 requests roles s schedule).Conforming store
        (fun i => fileProtocol md5 (roles i)) ∧
      FilePool.Balanced md5 roles ((s.files.counts md5).getD 0)
        (runFileRequests md5 requests roles s schedule) := by
  refine Pool.invariant (FilePool.balanced_step ?_) (fun i => conforms_of_fileRole (h.role i)) ?_
    hexclusive
  · intro i j user filename user' filename' hi hj hji heq
    refine hji (h.users ?_)
    simp only [user_of_fileRole ((h.role i).trans (congrArg some hi)),
      user_of_fileRole ((h.role j).trans (congrArg some hj)), heq]
  · have hzero : ∀ i, (roles i).counted ⟨.untouched, false⟩ = 0 := fun i =>
      Role.counted_of_before (by simp) (by simp)
    refine ⟨?_, ?_, ?_, ?_, ?_, ?_⟩
    · simp [Pool.start, fileProtocol, hzero]
    · have hrows := h.counted
      simp only [Pool.start, fileProtocol, Role.listed, Bool.false_eq_true, if_false,
        Finset.sum_const_zero, add_zero]
      exact hrows.ge
    · intro i k _ hread
      cases hread
    · intro i _ hemptied
      cases hemptied
    · intro i
      simp [Pool.start, fileProtocol, hzero, Role.listed]
    · intro i user filename hrole _
      exact h.owned i user filename hrole

theorem FileRequests.counts_of_done
    (hdone : ∀ i, (runFileRequests md5 requests roles s schedule).procs i = .done 0) :
    ((runFileRequests md5 requests roles s schedule).store.files.counts md5).getD 0 =
      (s.files.counts md5).getD 0 + (Finset.univ.filter fun i => roles i = .add).card -
        (Finset.univ.filter fun i => roles i ≠ .add).card := by
  obtain ⟨hconf, hbalanced⟩ := h.balanced hexclusive
  have hcounted : ∀ i, (roles i).counted
      ((runFileRequests md5 requests roles s schedule).stages i) =
        if roles i = .add then 1 else -1 := by
    intro i
    obtain ⟨hsettled, -⟩ := hconf.final (hdone i) rfl
    cases hrole : roles i <;> simp [Role.counted, hsettled]
  rw [hbalanced.total, Finset.sum_congr rfl fun i _ => hcounted i, Pool.sum_signs]
  exact (add_sub_assoc ..).symm

theorem FileRequests.fileInfo_ne_none {r : UserFile}
    (hr : r ∈ (runFileRequests md5 requests roles s schedule).store.tables.userFileList)
    (hmd5 : r.md5 = md5) :
    (runFileRequests md5 requests roles s schedule).store.tables.fileInfo md5 ≠ none := by
  intro hnone
  have hle := (h.balanced hexclusive).2.rows_le
  have hpos : 0 < (runFileRequests md5 requests roles s schedule).store.files.rows.countP
      (·.md5 = md5) := List.countP_pos_iff.mpr ⟨r, hr, by simpa using hmd5⟩
  simp only [Files.counts, Store.files, hnone, Option.map_none, Option.getD_none] at hle hpos
  omega

end Runs

end Balance

end HfDfs
