import HfDfs.Requests

/-!
# What a success code is worth

Any MySQL call may fail and do nothing. The question is whether a handler
that returns 0 has made the changes it makes without failures. Cancelling
and deleting report every failure. The others execute the stale SELECT
again when the count of files cannot be read, and take that for the
update; `deal_md5` also returns 0 when its first SELECT fails.
-/

namespace HfDfs

set_option autoImplicit false

open Procedures Procedures.Procedure Zlexcount Tallies

/-- Where the map was changed, it has its new value. -/
def MapMade {κ α : Type} (before after now : κ → Option α) : Prop :=
  ∀ k, after k ≠ before k → now k = after k

/-- Rows that came are there, and rows that went are gone, as often as they should be. -/
def RowsMade {ρ : Type} [DecidableEq ρ] (before after now : List ρ) : Prop :=
  ∀ r, (before.count r < after.count r → after.count r ≤ now.count r) ∧
    (after.count r < before.count r → now.count r ≤ after.count r)

/-- Every change from `before` to `after` has been made in `now`. -/
structure Made (before after now : Tables) : Prop where
  fileInfo : MapMade before.fileInfo after.fileInfo now.fileInfo
  userFileList : RowsMade before.userFileList after.userFileList now.userFileList
  userFileCount : MapMade before.userFileCount after.userFileCount now.userFileCount
  shareFileList : RowsMade before.shareFileList after.shareFileList now.shareFileList

theorem made_self (before after : Tables) : Made before after after :=
  ⟨fun _ _ => rfl, fun _ => ⟨fun _ => le_rfl, fun _ => le_rfl⟩, fun _ _ => rfl,
    fun _ => ⟨fun _ => le_rfl, fun _ => le_rfl⟩⟩

theorem made_nothing (before now : Tables) : Made before before now :=
  ⟨fun _ h => absurd rfl h, fun _ => ⟨fun h => absurd h (lt_irrefl _), fun h => absurd h (lt_irrefl _)⟩,
    fun _ h => absurd rfl h,
    fun _ => ⟨fun h => absurd h (lt_irrefl _), fun h => absurd h (lt_irrefl _)⟩⟩

inductive Operation where
  | dealMd5 (now user md5 filename : CString)
  | saveFile (now user md5 filename : CString)
  | shareFile (enc : Encoding) (now user md5 filename : CString)
  | cancelShareFile (user md5 filename : CString)
  | delFile (enc : Encoding) (user md5 filename : CString)
  | storeFileinfoToMysql (now user filename md5 : CString) (size : Int)
      (fileid fdfsFileUrl : CString)

def Operation.handler : Operation → Handler Int
  | dealMd5 now user md5 filename => HfDfs.dealMd5 now user md5 filename
  | saveFile now user md5 filename => HfDfs.saveFile now user md5 filename
  | shareFile enc now user md5 filename => HfDfs.shareFile enc now user md5 filename
  | cancelShareFile user md5 filename => HfDfs.cancelShareFile user md5 filename
  | delFile enc user md5 filename => HfDfs.delFile enc user md5 filename
  | storeFileinfoToMysql now user filename md5 size fileid fdfsFileUrl =>
    HfDfs.storeFileinfoToMysql now user filename md5 size fileid fdfsFileUrl

/-- Reported success means that the changes of a run without faults have been made. -/
def Honest (p : Handler Int) (faults : Nat → Bool) (s : Store) : Prop :=
  (p.runFaulty store faults 0 s).1 = 0 →
    Made s.tables (p.run store s).2.tables (p.runFaulty store faults 0 s).2.tables

/-! ## Handlers that report every failure -/

theorem honest_of_careful {p : Handler Int} (h : p.Careful store (· ≠ 0)) (faults : Nat → Bool)
    (s : Store) : Honest p faults s := by
  intro hresult
  rw [h.runFaulty_eq (not_not.mpr hresult)]
  exact made_self _ _

section Careful

variable {α : Type} {P : α → Prop}

theorem careful_mysqlQuery {statement : Statement} {failed : α} {rest : Handler α} (hfailed : P failed)
    (h : rest.Careful store P) :
    Careful store P (do
      if !(← mysqlQuery statement) then return failed
      rest) := by
  refine ⟨fun r => ?_, fun _ => Or.inl hfailed⟩
  cases r with
  | false => exact trivial
  | true => exact h

theorem careful_processResultOne {query : Query} {failed : α} {rest : Value → Handler α}
    (hfailed : P failed) (h : ∀ tmp, (rest tmp).Careful store P) :
    Careful store P (do
      match ← processResultOne query with
      | .row tmp => rest tmp
      | _ => return failed) := by
  refine ⟨fun r => ?_, fun _ => Or.inl hfailed⟩
  cases r with
  | row tmp => exact h tmp
  | _ => exact trivial

theorem careful_redisCommand {command : RedisCommand} {next : RedisReply → Handler α}
    (h : ∀ r, (next r).Careful store P) : Careful store P (.call (.redisCommand command) next) :=
  ⟨h, fun hc => by cases hc⟩

/-- Both connections are tested, and nobody looks whether `set names` succeeded. -/
theorem careful_begin {failed : α} {rest : Handler α} (hfailed : P failed)
    (h : rest.Careful store P) :
    Careful store P (do
      if !(← ropConnectdbNopwd) then return failed
      if !(← msqlConn) then return failed
      let _ ← mysqlQuery .setNames
      rest) := by
  refine ⟨fun r => ?_, fun _ => Or.inl hfailed⟩
  cases r with
  | false => exact trivial
  | true =>
    refine ⟨fun r => ?_, fun _ => Or.inl hfailed⟩
    cases r with
    | false => exact trivial
    | true => exact ⟨fun _ => h, fun _ => Or.inr ⟨fun _ => rfl, fun _ => rfl⟩⟩

end Careful

theorem careful_delFileInfo (md5 : CString) : (delFileInfo md5).Careful store (· ≠ 0) := by
  refine careful_processResultOne (by decide) fun tmp => careful_mysqlQuery (by decide) ?_
  split
  · exact trivial
  · refine careful_processResultOne (by decide) fun tmp => careful_mysqlQuery (by decide) ?_
    refine ⟨fun removed => ?_, fun _ => Or.inl (show (-1 : Int) ≠ 0 by decide)⟩
    cases removed <;> exact trivial

theorem careful_delUserFile (user md5 filename : CString) :
    (delUserFile user md5 filename).Careful store (· ≠ 0) :=
  careful_processResultOne (by decide) fun _ => careful_mysqlQuery (by decide)
    (careful_mysqlQuery (by decide) (careful_delFileInfo md5))

theorem careful_delCache (flag : Bool) (md5 filename : CString) :
    (delCache flag md5 filename).Careful store (fun _ => False) := by
  cases flag with
  | false => exact trivial
  | true => exact careful_redisCommand fun _ => careful_redisCommand fun _ => trivial

theorem careful_delShareFile (flag : Bool) (user md5 filename : CString) :
    (delShareFile flag user md5 filename).Careful store (· = false) :=
  careful_mysqlQuery rfl (careful_processResultOne rfl fun _ => careful_mysqlQuery rfl
    ((careful_delCache flag md5 filename).bind (fun _ => trivial) fun _ h => h.elim))

theorem careful_delRecords (share : Int) (flag : Bool) (user md5 filename : CString) :
    (delRecords share flag user md5 filename).Careful store (· ≠ 0) := by
  rw [delRecords]
  split
  · refine (careful_delShareFile flag user md5 filename).bind (fun deleted => ?_) ?_
    · cases deleted with
      | false => exact trivial
      | true => exact careful_delUserFile user md5 filename
    · rintro _ rfl
      exact (by decide : (-1 : Int) ≠ 0)
  · exact careful_delUserFile user md5 filename

theorem careful_delFile (enc : Encoding) (user md5 filename : CString) :
    (delFile enc user md5 filename).Careful store (· ≠ 0) := by
  have htest : (ropZsetExit FILE_PUBLIC_ZSET (fileid md5 filename) enc).Careful store
      (fun _ => False) := by
    refine careful_redisCommand fun reply => ?_
    cases reply <;> exact trivial
  refine careful_begin (by decide) (htest.bind (fun ret2 => ?_) fun _ h => h.elim)
  split
  · exact careful_delRecords 1 true user md5 filename
  split
  · refine ⟨fun r => ?_, fun _ => Or.inl (show (-1 : Int) ≠ 0 by decide)⟩
    cases r with
    | row tmp => exact careful_delRecords tmp.atoi false user md5 filename
    | failed => exact trivial
    | _ => exact careful_delRecords 0 false user md5 filename
  · exact trivial

theorem careful_cancelShareFile (user md5 filename : CString) :
    (cancelShareFile user md5 filename).Careful store (· ≠ 0) := by
  refine careful_begin (by decide) (careful_mysqlQuery (by decide) ?_)
  refine careful_processResultOne (by decide) fun tmp => careful_mysqlQuery (by decide) ?_
  refine careful_mysqlQuery (by decide) (careful_redisCommand fun reply => ?_)
  change Careful store (· ≠ 0)
    (if (if reply.toInteger ≠ 1 then (-1 : Int) else 0) ≠ 0 then _ else _ : Handler Int)
  split
  · exact trivial
  · exact careful_redisCommand fun _ => trivial

/-! ## Handlers that raise a count -/

/-- The INSERT before goes through, the count cannot be read, and the SELECT, executed once
more in place of the update, succeeds. -/
def unraised (faults : Nat → Bool) (n : Nat) : Prop :=
  faults n = false ∧ faults (n + 1) = true ∧ faults (n + 2) = false

theorem runFaulty_mysqlQuery {α : Type} (faults : Nat → Bool) (n : Nat) {statement : Statement}
    {s : Store} {tables : Tables} (hafter : statement.apply s.tables = some tables) {failed : α}
    {rest : Handler α} :
    runFaulty store faults n (do
      if !(← mysqlQuery statement) then return failed
      rest) s =
      if faults n then (failed, s)
      else runFaulty store faults (n + 1) rest { s with tables := tables } := by
  rw [mysqlQuery, call_bind, runFaulty_call, store_exec, Store.exec, hafter]
  cases faults n <;> rfl

theorem runFaulty_raiseFileCount {α : Type} (faults : Nat → Bool) (n : Nat) (user : CString)
    {failed : α} {rest : Handler α} (s : Store) :
    runFaulty store faults n (do
      if !(← raiseFileCount user) then return failed
      rest) s =
      if faults (n + 1) then (failed, s)
      else runFaulty store faults (n + 2) rest
        ⟨{ s.tables with
            userFileCount :=
              if faults n then s.tables.userFileCount else raise s.tables.userFileCount user },
          s.redis, s.storage⟩ := by
  rw [raiseFileCount, processResultOne, call_bind, call_bind, runFaulty_processResultOne]
  cases hread : faults n with
  | true =>
    cases hwrite : faults (n + 1) <;> simp [runFaulty_call, hwrite]
  | false =>
    cases hcount : s.tables.userFileCount user with
    | none => cases hwrite : faults (n + 1) <;> simp [runFaulty_call, hwrite, hcount, raise]
    | some k => cases hwrite : faults (n + 1) <;> simp [runFaulty_call, hwrite, hcount, raise]

theorem runFaulty_addUserFile (faults : Nat → Bool) (n : Nat) (now user md5 filename : CString)
    (s : Store) : ∃ lost, runFaulty store faults n (addUserFile now user md5 filename) s =
      if faults n || faults (n + 2) then (-1, lost)
      else (0, ⟨{ s.tables with
          userFileList := s.tables.userFileList ++ [⟨user, md5, now, filename, 0, 0⟩]
          userFileCount := if faults (n + 1) then s.tables.userFileCount
            else raise s.tables.userFileCount user }, s.redis, s.storage⟩) := by
  have hinsert : (Statement.insertUserFile user md5 now filename 0 0).apply s.tables =
      some { s.tables with
        userFileList := s.tables.userFileList ++ [⟨user, md5, now, filename, 0, 0⟩] } := rfl
  rw [addUserFile, runFaulty_mysqlQuery faults n hinsert, runFaulty_raiseFileCount]
  cases faults n with
  | true => exact ⟨s, rfl⟩
  | false =>
    cases faults (n + 2) with
    | true => exact ⟨_, rfl⟩
    | false => exact ⟨s, rfl⟩

theorem runFaulty_addReference (faults : Nat → Bool) (n : Nat) (now user md5 filename : CString)
    {info : FileInfo} {s : Store} (hinfo : s.tables.fileInfo md5 = some info) :
    ∃ lost, runFaulty store faults n (addReference info.count now user md5 filename) s =
      if faults n || faults (n + 1) || faults (n + 3) then (-1, lost)
      else (0, ⟨{ s.tables.gain now user md5 filename info with
          userFileCount := if faults (n + 2) then s.tables.userFileCount
            else raise s.tables.userFileCount user }, s.redis, s.storage⟩) := by
  have hupdate : (Statement.updateFileInfoCount (info.count + 1) md5).apply s.tables =
      some { s.tables with
        fileInfo := Function.update s.tables.fileInfo md5
          (some { info with count := info.count + 1 }) } := by
    simp [hinfo]
  rw [addReference, runFaulty_mysqlQuery faults n hupdate]
  cases faults n with
  | true => exact ⟨s, rfl⟩
  | false =>
    obtain ⟨lost, hlost⟩ := runFaulty_addUserFile faults (n + 1) now user md5 filename
      ⟨{ s.tables with
        fileInfo := Function.update s.tables.fileInfo md5
          (some { info with count := info.count + 1 }) }, s.redis, s.storage⟩
    exact ⟨lost, hlost⟩

/-- A count that was raised in the one run and not in the other shows. -/
theorem not_made_of_count {before after now : Tables} {user : CString}
    (hafter : after.userFileCount = raise before.userFileCount user)
    (hnow : now.userFileCount = before.userFileCount) : ¬ Made before after now := by
  intro h
  have hne : after.userFileCount user ≠ before.userFileCount user := by
    rw [hafter, raise, Function.update_self]
    cases before.userFileCount user with
    | none => exact Option.some_ne_none _
    | some n =>
      intro heq
      have hsame : n + 1 = n := Option.some.inj heq
      omega
  exact hne ((h.userFileCount user hne).symm.trans (congrFun hnow user))

/-- A handler whose success leaves at most the raised count undone. -/
theorem honest_iff_raised {p : Handler Int} {faults : Nat → Bool} {s lost : Store}
    {stop missed : Bool} {full : Tables} {user : CString} {redis : Redis} {storage : Finset CString}
    (hfaulty : p.runFaulty store faults 0 s = if stop then (-1, lost)
      else (0, ⟨{ full with
          userFileCount := if missed then s.tables.userFileCount
            else raise s.tables.userFileCount user }, redis, storage⟩))
    (hrun : (p.run store s).2.tables = full)
    (hcount : full.userFileCount = raise s.tables.userFileCount user) :
    Honest p faults s ↔ ¬ (stop = false ∧ missed = true) := by
  rw [Honest, hfaulty, hrun]
  cases stop with
  | true => simp
  | false =>
    cases missed with
    | true =>
      simp only [Bool.false_eq_true, if_false, if_true, forall_const, and_self, not_true, iff_false]
      exact not_made_of_count hcount rfl
    | false =>
      simp only [Bool.false_eq_true, if_false, forall_const, and_false, not_false_eq_true, iff_true,
        ← hcount]
      exact made_self _ _

/-- The same for a handler that first gives up when one of two calls fails. -/
theorem honest_iff_raised_of_started {p : Handler Int} {faults : Nat → Bool} {s lost : Store}
    {first second stop missed : Bool} {full : Tables} {user : CString} {redis : Redis}
    {storage : Finset CString}
    (hfaulty : p.runFaulty store faults 0 s = if first || second then (-1, s)
      else if stop then (-1, lost)
      else (0, ⟨{ full with
          userFileCount := if missed then s.tables.userFileCount
            else raise s.tables.userFileCount user }, redis, storage⟩))
    (hrun : (p.run store s).2.tables = full)
    (hcount : full.userFileCount = raise s.tables.userFileCount user) :
    Honest p faults s ↔ (first = false → second = false → ¬ (stop = false ∧ missed = true)) := by
  cases hstart : first || second with
  | true =>
    rw [hstart] at hfaulty
    refine iff_of_true (fun h => by simp [hfaulty] at h) fun hfirst hsecond => ?_
    simp [hfirst, hsecond] at hstart
  | false =>
    rw [hstart, if_neg Bool.false_ne_true] at hfaulty
    obtain ⟨hfirst, hsecond⟩ := Bool.or_eq_false_iff.mp hstart
    rw [honest_iff_raised hfaulty hrun hcount]
    exact ⟨fun h _ _ => h, fun h => h hfirst hsecond⟩

theorem honest_of_unchanged {p : Handler Int} {s : Store} (h : (p.run store s).2.tables = s.tables)
    (faults : Nat → Bool) : Honest p faults s := by
  intro _
  rw [h]
  exact made_nothing _ _

/-- No call fails in a way that goes unreported: the first SELECT of `deal_md5`, or the
reading of the count. Where the run without faults changes nothing, nothing is asked. -/
def honestOk (faults : Nat → Bool) : Operation → Store → Prop
  | .dealMd5 _ user md5 filename, s =>
    s.tables.fileInfo md5 ≠ none → s.tables.holds user md5 filename = false → faults 0 = false →
      faults 2 = false ∧ ¬ (faults 4 = false ∧ unraised faults 5)
  | .saveFile _ user md5 filename, s =>
    s.tables.fileInfo md5 ≠ none → s.tables.holds user md5 filename = false → faults 0 = false →
      faults 3 = false → ¬ (faults 4 = false ∧ unraised faults 5)
  | .shareFile enc _ _ md5 filename, s =>
    s.redis.presence (fileid md5 filename) enc = 0 → s.tables.shared md5 filename = false →
      faults 0 = false → faults 1 = false → ¬ (faults 5 = false ∧ unraised faults 6)
  | .storeFileinfoToMysql _ _ _ md5 _ _ _, s =>
    s.tables.fileInfo md5 = none → faults 0 = false → faults 2 = false → ¬ unraised faults 3
  | _, _ => True

section

variable (faults : Nat → Bool) (s : Store)

theorem runFaulty_dealMd5 (now user md5 filename : CString) {info : FileInfo}
    (hinfo : s.tables.fileInfo md5 = some info) (hholds : s.tables.holds user md5 filename = false) :
    runFaulty store faults 0 (dealMd5 now user md5 filename) s =
      if faults 0 then (-1, s)
      else if faults 2 then (0, s)
      else runFaulty store faults 4 (addReference info.count now user md5 filename) s := by
  rw [Tables.holds] at hholds
  cases h0 : faults 0 with
  | true => simp [dealMd5, runFaulty_call, h0]
  | false =>
    cases h2 : faults 2 with
    | true => simp [dealMd5, runFaulty_call, h0, h2]
    | false => cases h3 : faults 3 <;> simp [dealMd5, runFaulty_call, h0, h2, h3, hinfo, hholds]

theorem honest_dealMd5 (now user md5 filename : CString) :
    Honest (dealMd5 now user md5 filename) faults s ↔
      honestOk faults (.dealMd5 now user md5 filename) s := by
  have hrun := run_dealMd5 now user md5 filename s
  rw [honestOk]
  cases hinfo : s.tables.fileInfo md5 with
  | none =>
    rw [hinfo] at hrun
    exact iff_of_true (honest_of_unchanged (by rw [hrun]) faults) (fun h => absurd rfl h)
  | some info =>
    cases hholds : s.tables.holds user md5 filename with
    | true =>
      rw [hinfo, hholds] at hrun
      exact iff_of_true (honest_of_unchanged (by rw [hrun]; rfl) faults) (by simp)
    | false =>
      rw [hinfo, hholds] at hrun
      have htables : ((dealMd5 now user md5 filename).run store s).2.tables =
          s.tables.gain now user md5 filename info := by rw [hrun]; rfl
      have hfaulty := runFaulty_dealMd5 faults s now user md5 filename hinfo hholds
      cases h0 : faults 0 with
      | true => exact iff_of_true (fun h => by simp [hfaulty, h0] at h) (by simp)
      | false =>
        cases h2 : faults 2 with
        | true =>
          refine iff_of_false (fun h => ?_) (by simp)
          have hdone : runFaulty store faults 0 (dealMd5 now user md5 filename) s = (0, s) := by
            simp [hfaulty, h0, h2]
          rw [Honest, hdone, htables] at h
          exact not_made_of_count rfl rfl (h rfl)
        | false =>
          obtain ⟨lost, hlost⟩ := runFaulty_addReference faults 4 now user md5 filename hinfo
          rw [h0, h2, if_neg Bool.false_ne_true, if_neg Bool.false_ne_true, hlost] at hfaulty
          rw [honest_iff_raised hfaulty htables rfl]
          simp [unraised, and_assoc, and_comm, and_left_comm]

theorem honest_saveFile (now user md5 filename : CString) :
    Honest (saveFile now user md5 filename) faults s ↔
      honestOk faults (.saveFile now user md5 filename) s := by
  have hrun := run_saveFile now user md5 filename s
  rw [honestOk]
  cases hholds : s.tables.holds user md5 filename with
  | true =>
    rw [hholds] at hrun
    exact iff_of_true (honest_of_unchanged (by rw [hrun]; rfl) faults) (by simp)
  | false =>
    cases hinfo : s.tables.fileInfo md5 with
    | none =>
      rw [hinfo, hholds] at hrun
      exact iff_of_true (honest_of_unchanged (by rw [hrun]; rfl) faults) (fun h => absurd rfl h)
    | some info =>
      rw [hinfo, hholds] at hrun
      have htables : ((saveFile now user md5 filename).run store s).2.tables =
          s.tables.gain now user md5 filename info := by rw [hrun]; rfl
      rw [Tables.holds] at hholds
      obtain ⟨lost, hlost⟩ := runFaulty_addReference faults 4 now user md5 filename hinfo
      have hfaulty : runFaulty store faults 0 (saveFile now user md5 filename) s =
          if faults 0 || faults 3 then (-1, s)
          else runFaulty store faults 4 (addReference info.count now user md5 filename) s := by
        cases h0 : faults 0 with
        | true => simp [saveFile, runFaulty_call, h0]
        | false =>
          cases h2 : faults 2 <;> cases h3 : faults 3 <;>
            simp [saveFile, runFaulty_call, h0, h2, h3, hinfo, hholds]
      rw [hlost] at hfaulty
      rw [honest_iff_raised_of_started hfaulty htables rfl]
      simp [unraised, and_assoc, and_comm, and_left_comm]

theorem honest_storeFileinfoToMysql (now user filename md5 : CString) (size : Int)
    (fileid url : CString) :
    Honest (storeFileinfoToMysql now user filename md5 size fileid url) faults s ↔
      honestOk faults (.storeFileinfoToMysql now user filename md5 size fileid url) s := by
  have hrun := run_storeFileinfoToMysql now user filename md5 size fileid url s
  rw [honestOk]
  cases hinfo : s.tables.fileInfo md5 with
  | some info =>
    rw [hinfo] at hrun
    exact iff_of_true (honest_of_unchanged (by rw [hrun]) faults) (by simp)
  | none =>
    rw [hinfo] at hrun
    obtain ⟨lost, hlost⟩ := runFaulty_addUserFile faults 3 now user md5 filename
      ⟨{ s.tables with
        fileInfo := Function.update s.tables.fileInfo md5
          (some ⟨fileid, url, size, getFileSuffix filename, 1⟩) }, s.redis, s.storage⟩
    have htables : ((storeFileinfoToMysql now user filename md5 size fileid url).run store s).2.tables =
        s.tables.gain now user md5 filename ⟨fileid, url, size, getFileSuffix filename, 0⟩ := by
      rw [hrun]
    have hfaulty : runFaulty store faults 0
        (storeFileinfoToMysql now user filename md5 size fileid url) s =
        if faults 0 || faults 2 then (-1, s)
        else runFaulty store faults 3 (addUserFile now user md5 filename)
          ⟨{ s.tables with
            fileInfo := Function.update s.tables.fileInfo md5
              (some ⟨fileid, url, size, getFileSuffix filename, 1⟩) }, s.redis, s.storage⟩ := by
      cases h0 : faults 0 with
      | true => simp [storeFileinfoToMysql, runFaulty_call, h0]
      | false =>
        cases h2 : faults 2 <;> simp [storeFileinfoToMysql, runFaulty_call, h0, h2, hinfo]
    rw [hlost] at hfaulty
    rw [honest_iff_raised_of_started hfaulty htables rfl]
    simp [unraised, and_comm, and_left_comm]

theorem runFaulty_begin {failed : Int} {rest : Handler Int} :
    runFaulty store faults 0 (do
      if !(← ropConnectdbNopwd) then return failed
      if !(← msqlConn) then return failed
      let _ ← mysqlQuery .setNames
      rest) s =
      if faults 0 || faults 1 then (failed, s) else runFaulty store faults 3 rest s := by
  cases h0 : faults 0 with
  | true => simp [runFaulty_call, h0]
  | false => cases h1 : faults 1 <;> simp [runFaulty_call, h0, h1]

theorem runFaulty_ropZsetExit (n : Nat) (mark : CString) (enc : Encoding) (f : Int → Handler Int) :
    runFaulty store faults n (ropZsetExit FILE_PUBLIC_ZSET mark enc >>= f) s =
      runFaulty store faults (n + 1) (f (s.redis.presence mark enc)) s := by
  cases hz : s.redis.zsetAt FILE_PUBLIC_ZSET with
  | none => simp [ropZsetExit, runFaulty_call, Redis.exec, Redis.presence, hz]
  | some z => simp [ropZsetExit, runFaulty_call, Redis.exec, Redis.presence, hz]

/-- Redis does not fail, so the end of `share_file` succeeds. -/
theorem runFaulty_publish (n : Nat) (score : Int) (mark name : CString) :
    runFaulty store faults n (do
      let _ ← ropZsetAdd FILE_PUBLIC_ZSET score mark
      let _ ← ropHashSet FILE_NAME_HASH mark name
      return (0 : Int)) s = (0, { s with redis := s.redis.publish score mark name }) := by
  have hname : (ropHashSet FILE_NAME_HASH mark name).Careful store (fun _ => False) := by
    refine careful_redisCommand fun reply => ?_
    cases reply <;> exact trivial
  have hcareful : Careful store (fun _ => False) (do
      let _ ← ropZsetAdd FILE_PUBLIC_ZSET score mark
      let _ ← ropHashSet FILE_NAME_HASH mark name
      return (0 : Int)) :=
    careful_redisCommand fun _ => hname.bind (fun _ => trivial) fun _ h => h.elim
  rw [hcareful.runFaulty_eq id]
  simp [run_bind, run_ropZsetAdd, run_ropHashSet, Redis.publish]

/-- The part of `share_file` that changes the tables. -/
theorem runFaulty_share (now user md5 filename : CString) :
    ∃ lost, runFaulty store faults 5 (do
      if !(← mysqlQuery (.updateSharedStatus 1 user md5 filename)) then return -1
      if !(← mysqlQuery (.insertShareFile user md5 now filename 0)) then return -1
      if !(← raiseFileCount shareCountUser) then return -1
      let _ ← ropZsetAdd FILE_PUBLIC_ZSET 0 (fileid md5 filename)
      let _ ← ropHashSet FILE_NAME_HASH (fileid md5 filename) filename
      return (0 : Int)) s =
      if faults 5 || faults 6 || faults 8 then (-1, lost)
      else (0, ⟨{ s.tables.share now user md5 filename with
          userFileCount := if faults 7 then s.tables.userFileCount
            else raise s.tables.userFileCount shareCountUser },
          s.redis.publish 0 (fileid md5 filename) filename, s.storage⟩) := by
  rw [runFaulty_mysqlQuery faults 5 rfl]
  cases faults 5 with
  | true => exact ⟨s, rfl⟩
  | false =>
    rw [if_neg Bool.false_ne_true, runFaulty_mysqlQuery faults 6 rfl]
    cases faults 6 with
    | true => exact ⟨_, rfl⟩
    | false =>
      rw [if_neg Bool.false_ne_true, runFaulty_raiseFileCount, runFaulty_publish]
      cases faults 8 with
      | true => exact ⟨_, rfl⟩
      | false => exact ⟨s, rfl⟩

theorem honest_shareFile (enc : Encoding) (now user md5 filename : CString) :
    Honest (shareFile enc now user md5 filename) faults s ↔
      honestOk faults (.shareFile enc now user md5 filename) s := by
  have hrun := run_shareFile enc now user md5 filename s
  rw [honestOk]
  rcases eq_or_ne (s.redis.presence (fileid md5 filename) enc) 0 with h0 | h0
  · cases hshared : s.tables.shared md5 filename with
    | true =>
      refine iff_of_true (honest_of_unchanged ?_ faults) (by simp)
      simp [hrun, h0, hshared]
    | false =>
      have htables : ((shareFile enc now user md5 filename).run store s).2.tables =
          s.tables.share now user md5 filename := by simp [hrun, h0, hshared]
      obtain ⟨lost, hlost⟩ := runFaulty_share faults s now user md5 filename
      have hfaulty : runFaulty store faults 0 (shareFile enc now user md5 filename) s =
          if faults 0 || faults 1 then (-1, s)
          else if faults 5 || faults 6 || faults 8 then (-1, lost)
          else (0, ⟨{ s.tables.share now user md5 filename with
              userFileCount := if faults 7 then s.tables.userFileCount
                else raise s.tables.userFileCount shareCountUser },
              s.redis.publish 0 (fileid md5 filename) filename, s.storage⟩) := by
        rw [← hlost, shareFile, runFaulty_begin, runFaulty_ropZsetExit, h0]
        congr 1
        rw [if_neg (by decide), if_neg (by decide), processResultOneNull, call_bind,
          runFaulty_processResultOne]
        rw [Tables.shared] at hshared
        -- a failed SELECT passes for one without rows
        cases faults 4 <;> simp [hshared]
      rw [honest_iff_raised_of_started hfaulty htables rfl]
      simp [unraised, h0, and_assoc, and_comm, and_left_comm]
  · refine iff_of_true (honest_of_unchanged ?_ faults) (fun h => absurd h h0)
    rw [hrun]
    split
    · rfl
    · rfl

end

/-- For every operation, store and pattern of faults: a success code means that the work was
done, exactly when the condition holds. -/
theorem honest_iff (op : Operation) (faults : Nat → Bool) (s : Store) :
    Honest op.handler faults s ↔ honestOk faults op s := by
  cases op with
  | dealMd5 now user md5 filename => exact honest_dealMd5 faults s now user md5 filename
  | saveFile now user md5 filename => exact honest_saveFile faults s now user md5 filename
  | shareFile enc now user md5 filename => exact honest_shareFile faults s enc now user md5 filename
  | cancelShareFile user md5 filename =>
    exact iff_of_true (honest_of_careful (careful_cancelShareFile user md5 filename) faults s) trivial
  | delFile enc user md5 filename =>
    exact iff_of_true (honest_of_careful (careful_delFile enc user md5 filename) faults s) trivial
  | storeFileinfoToMysql now user filename md5 size fileid url =>
    exact honest_storeFileinfoToMysql faults s now user filename md5 size fileid url

/-- `u` has uploaded the file. -/
def oneFile : Store :=
  Request.serve (.upload (bytes "t") (bytes "u") (bytes "f") (bytes "m") 1 (bytes "id") []) .empty

def addFile : Operation := .dealMd5 (bytes "t") (bytes "v") (bytes "m") (bytes "f")

/-- Without faults `v` gets the file and a count of 1. When the first SELECT fails nothing is
done, and when the count cannot be read it is not raised; the code is 0 both times. -/
theorem not_honest_dealMd5_unread :
    ((addFile.handler.run store oneFile).2.tables.userFileCount (bytes "v") = some 1 ∧
      (addFile.handler.runFaulty store (· == 2) 0 oneFile).1 = 0 ∧
      (addFile.handler.runFaulty store (· == 2) 0 oneFile).2.tables.userFileCount (bytes "v") = none ∧
      ¬ Honest addFile.handler (· == 2) oneFile) ∧
    (addFile.handler.runFaulty store (· == 6) 0 oneFile).1 = 0 ∧
      (addFile.handler.runFaulty store (· == 6) 0 oneFile).2.tables.userFileCount (bytes "v") = none ∧
      ¬ Honest addFile.handler (· == 6) oneFile := by
  refine ⟨⟨by decide, by decide, by decide, fun h => ?_⟩, by decide, by decide, fun h => ?_⟩
  · exact absurd ((h (by decide)).userFileCount (bytes "v") (by decide)) (by decide)
  · exact absurd ((h (by decide)).userFileCount (bytes "v") (by decide)) (by decide)

end HfDfs
