import HfDfs.Library.Interleaving
import HfDfs.Cgi.Commands
import HfDfs.Mysql.TextServer
import HfDfs.Properties.Wording

/-!
# A file is shared at most once

`share_file_list` has no key. That no file is in it twice rests on
`share_file` alone: it inserts a row after a SELECT that found none, and
only the one `dealfile` process inserts rows. Here nothing but MySQL is
trusted: Redis, the storage tools and the attempts to connect answer as
they like. MySQL has to get the statements that are meant: a name that
breaks out of its quotes is looked for under one name and stored under
another.
-/

namespace HfDfs

set_option autoImplicit false

open Procedures Procedures.Procedure Zlexcount

/-- The tables, and the answers that everything but MySQL is going to give. -/
structure Answered where
  tables : Tables
  answers : Nat → (c : Command) → Reply c

def Command.sql : Command → Bool
  | .mysqlQuery _ | .processResultOne _ _ | .selectShareFilesByPv | .selectUserFiles _ _ _ _ => true
  | _ => false

def Answered.exec (c : Command) (s : Answered) : Reply c × Answered :=
  if c.sql then
    let (reply, t) := Store.exec c ⟨s.tables, .empty, ∅⟩
    (reply, { s with tables := t.tables })
  else (s.answers 0 c, { s with answers := fun n => s.answers (n + 1) })

theorem exec_of_sql {c : Command} (h : c.sql = true) (s : Answered) :
    Answered.exec c s = ((Store.exec c ⟨s.tables, .empty, ∅⟩).1,
      { s with tables := (Store.exec c ⟨s.tables, .empty, ∅⟩).2.tables }) := by
  rw [Answered.exec, if_pos h]

@[simps] def answered : Semantics Command Reply Answered where
  exec := Answered.exec
  fallible _ := false
  failed := Command.failed

/-- What the server makes of the other texts. -/
def Server.answering (server : Server) : Deviation Command Reply Answered where
  undefined := server.deviation.undefined
  foreign := server.deviation.foreign
  exec c s := ((server c s.tables).1, { s with tables := (server c s.tables).2 })

/-- MySQL reads texts, the others answer. -/
def answeredTexts (server : Server) : Semantics Command Reply (Option Answered) :=
  answered.deviate server.answering

/-! ## The processes -/

inductive Service where
  | upload
  | md5
  | dealfile
  | dealsharefile
deriving DecidableEq, Repr

/-- The program that serves the request, if it is one of the four. -/
def Request.service : Request → Option Service
  | .upload .. => some .upload
  | .dealMd5 .. => some .md5
  | .shareFile .. | .delFile .. | .pvFile .. => some .dealfile
  | .cancelShareFile .. | .saveFile .. | .pvShareFile .. => some .dealsharefile
  | .getRankingFilelist .. | .userRegister .. | .login .. => none

/-- A process serves one request after the other. -/
def process : List Request → Handler Unit
  | [] => return ()
  | r :: rest => do
    let _ ← r.handler
    process rest

/-! ## What a command does to the shared files -/

def Tables.sharedFiles (t : Tables) : List (CString × CString) :=
  t.shareFileList.map fun r => (r.md5, r.filename)

def SharedOnce (t : Tables) : Prop := t.sharedFiles.Nodup

def Command.addsShare : Command → Bool
  | .mysqlQuery (.insertShareFile _ _ _ _ _) => true
  | _ => false

theorem sharedFiles_apply {statement : Statement} {t t' : Tables}
    (h : statement.apply t = some t')
    (hadds : (Command.mysqlQuery statement).addsShare = false) :
    t'.sharedFiles.Sublist t.sharedFiles := by
  cases statement with
  | insertShareFile => cases hadds
  | insertFileInfo | insertUserFileCount | insertUser =>
    rw [Statement.apply] at h
    split at h
    · cases h
    · cases h
      exact List.Sublist.refl _
  | updateShareFilePv pv md5 filename =>
    cases h
    have hkey : (fun r => (r.md5, r.filename)) ∘
        (fun r : ShareFile => if r.isFile md5 filename then { r with pv := pv } else r) =
        fun r => (r.md5, r.filename) := by
      funext r
      dsimp only [Function.comp]
      split <;> rfl
    rw [Tables.sharedFiles, List.map_map, hkey]
    exact List.Sublist.refl _
  | deleteShareFile user md5 filename =>
    cases h
    exact List.filter_sublist.map _
  | _ =>
    cases h
    exact List.Sublist.refl _

/-- Without an INSERT into `share_file_list` files can only go from it. -/
theorem sharedFiles_exec {c : Command} (hadds : c.addsShare = false) (s : Answered) :
    (Answered.exec c s).2.tables.sharedFiles.Sublist s.tables.sharedFiles := by
  cases c with
  | mysqlQuery statement =>
    rw [exec_of_sql rfl, Store.exec]
    cases happly : statement.apply s.tables with
    | none => exact List.Sublist.refl _
    | some t => exact sharedFiles_apply happly hadds
  | _ => exact List.Sublist.refl _

theorem notMem_sharedFiles {t : Tables} {md5 filename : CString} {save : Bool}
    (h : resultOne (Query.result t (.shareFileAll md5 filename)) save = .noRow) :
    (md5, filename) ∉ t.sharedFiles := by
  intro hmem
  obtain ⟨r, hr, heq⟩ := List.mem_map.mp hmem
  cases heq
  have hrow : r ∈ t.shareFileList.filter (·.isFile r.md5 r.filename) := by
    rw [List.mem_filter]
    exact ⟨hr, ShareFile.isFile_iff.mpr ⟨rfl, rfl⟩⟩
  cases hrows : t.shareFileList.filter (·.isFile r.md5 r.filename) with
  | nil => simp [hrows] at hrow
  | cons x rest =>
    rw [Query.result, hrows] at h
    cases save <;> cases h

/-! ## The protocol -/

/-- The stage of `dealfile` is the file that its last SELECT did not find. It may be
inserted, and nobody but `dealfile` may insert. -/
def shareProtocol (α : Type) (i : Service) :
    Protocol Command Reply α (Option (CString × CString)) where
  start := none
  next g c r :=
    match c, r with
    | .processResultOne (.shareFileAll md5 filename) _, .noRow => some (md5, filename)
    | .mysqlQuery (.insertShareFile _ _ _ _ _), _ => none
    | _, _ => g
  allowed g c :=
    match c with
    | .mysqlQuery (.insertShareFile _ md5 _ filename _) =>
      i = .dealfile ∧ g = some (md5, filename)
    | _ => True
  final _ _ := True

theorem shareProtocol_allowed {α : Type} {i : Service} {c : Command} (h : c.addsShare = false)
    (g : Option (CString × CString)) : (shareProtocol α i).allowed g c := by
  cases c with
  | mysqlQuery statement =>
    cases statement with
    | insertShareFile => cases h
    | _ => exact trivial
  | _ => exact trivial

/-! ## The handlers conform -/

def AddsNoShare {α : Type} (p : Handler α) : Prop := p.Issues fun c => c.addsShare = false

theorem AddsNoShare.conforms {α : Type} {p : Handler α} (h : AddsNoShare p) (i : Service)
    (g : Option (CString × CString)) : Conforms answered (shareProtocol α i) p g :=
  .of_issues (fun _ _ => trivial) (h.mono fun _ hc => shareProtocol_allowed hc)

section AddsNoShare

variable (enc : Encoding) (now user md5 filename : CString)

theorem addsShare_of_countCommand {c : Command} (h : CountCommand user c) : c.addsShare = false := by
  cases h <;> rfl

theorem addsShare_of_fileCommand {c : Command} (h : FileCommand now user md5 filename c) :
    c.addsShare = false := by
  cases h with
  | count h =>
    rcases h with h | h
    · exact addsShare_of_countCommand _ h
    · exact addsShare_of_countCommand _ h
  | _ => rfl

theorem addsNoShare_of_issues {α : Type} {p : Handler α}
    (h : p.Issues (FileCommand now user md5 filename)) : AddsNoShare p :=
  h.mono fun _ => addsShare_of_fileCommand now user md5 filename

theorem upload_addsNoShare (size : Int) (fileid url : CString) :
    AddsNoShare (upload now user filename md5 size fileid url) := by
  refine Issues.guard ⟨rfl, fun _ => trivial⟩ trivial ?_
  refine (issues_storeFileinfoToMysql now user md5 filename size fileid url).mono fun c hc => ?_
  rcases hc with hc | rfl
  · exact addsShare_of_fileCommand now user md5 filename hc
  · rfl

/-- The one handler that inserts asks for the file first. -/
theorem conforms_shareFile_once (g : Option (CString × CString)) :
    Conforms answered (shareProtocol Int .dealfile) (shareFile enc now user md5 filename) g := by
  refine Conforms.guard (p := ropConnectdbNopwd) ⟨⟨fun _ => trivial, fun _ _ => rfl⟩, fun _ => trivial⟩
    trivial ?_
  refine Conforms.guard (p := msqlConn) ⟨⟨fun _ => trivial, fun _ _ => rfl⟩, fun _ => trivial⟩
    trivial ?_
  refine Conforms.call_of_quiet ⟨fun _ => trivial, fun _ _ => rfl⟩ fun _ => ?_
  refine Conforms.bind (p := ropZsetExit _ _ enc) (Q := fun _ _ => True)
    ((addsNoShare_of_issues now user md5 filename
      (issues_ropZsetExit enc now user md5 filename _ _)).conforms .dealfile g) fun ret2 g _ => ?_
  split
  · exact trivial
  split
  · exact trivial
  refine ⟨trivial, fun s => ?_⟩
  have hreply : (answered.exec (.processResultOne (.shareFileAll md5 filename) false) s).1 =
      if s.tables.shared md5 filename then .notSaved else .noRow := by
    rw [answered_exec, exec_of_sql rfl]
    exact resultOne_null _ _ _
  rw [hreply]
  cases s.tables.shared md5 filename with
  | true => exact ⟨trivial, fun _ => trivial⟩
  | false =>
    refine ⟨trivial, fun s => ?_⟩
    cases (answered.exec (.mysqlQuery (.updateSharedStatus 1 user md5 filename)) s).1 with
    | false => exact trivial
    | true =>
    have hrest : AddsNoShare (do
        if !(← raiseFileCount shareCountUser) then return (-1 : Int)
        let _ ← ropZsetAdd FILE_PUBLIC_ZSET 0 (fileid md5 filename)
        let _ ← ropHashSet FILE_NAME_HASH (fileid md5 filename) filename
        return 0) :=
      Issues.guard ((issues_raiseFileCount _).mono fun _ => addsShare_of_countCommand _) trivial
        ⟨rfl, fun _ => (addsNoShare_of_issues now user md5 filename
          (issues_ropHashSet now user md5 filename _ _ _)).bind fun _ => trivial⟩
    refine ⟨⟨rfl, rfl⟩, fun s => ?_⟩
    cases (answered.exec (.mysqlQuery (.insertShareFile user md5 now filename 0)) s).1 with
    | false => exact trivial
    | true => exact hrest.conforms .dealfile none

end AddsNoShare

theorem conforms_handler {r : Request} {i : Service} (h : r.service = some i)
    (g : Option (CString × CString)) : Conforms answered (shareProtocol Int i) r.handler g := by
  cases r with
  | upload now user filename md5 size fileid url =>
    exact (upload_addsNoShare now user md5 filename size fileid url).conforms i g
  | dealMd5 now user md5 filename =>
    exact (addsNoShare_of_issues _ _ _ _ (issues_dealMd5 now user md5 filename)).conforms i g
  | saveFile now user md5 filename =>
    exact (addsNoShare_of_issues _ _ _ _ (issues_saveFile now user md5 filename)).conforms i g
  | shareFile enc now user md5 filename =>
    cases h
    exact conforms_shareFile_once enc now user md5 filename g
  | cancelShareFile user md5 filename =>
    exact (addsNoShare_of_issues _ _ _ _ (issues_cancelShareFile [] user md5 filename)).conforms i g
  | delFile enc user md5 filename =>
    exact (addsNoShare_of_issues _ _ _ _ (issues_delFile enc [] user md5 filename)).conforms i g
  | pvFile user md5 filename =>
    exact (addsNoShare_of_issues _ _ _ _ (issues_pvFile [] user md5 filename)).conforms i g
  | pvShareFile enc md5 filename =>
    exact (addsNoShare_of_issues _ _ _ _ (issues_pvShareFile enc [] [] md5 filename)).conforms i g
  | getRankingFilelist | userRegister | login => cases h

theorem conforms_process {i : Service} {requests : List Request}
    (h : ∀ r ∈ requests, r.service = some i) (g : Option (CString × CString)) :
    Conforms answered (shareProtocol Unit i) (process requests) g := by
  induction requests generalizing g with
  | nil => exact trivial
  | cons r rest ih =>
    obtain ⟨hr, hrest⟩ := List.forall_mem_cons.mp h
    exact Conforms.bind (Q := fun _ _ => True) (conforms_handler hr g) fun _ g _ => ih hrest g

/-! ## Any interleaving -/

abbrev ServicePool := Pool Service Command Reply Unit (Option (CString × CString)) Answered

/-- No file is there twice, and the file that `dealfile` may insert is not there. -/
structure ShareGuarded (P : ServicePool) : Prop where
  once : SharedOnce P.store.tables
  absent : ∀ file, P.stages .dealfile = some file → file ∉ P.store.tables.sharedFiles

theorem absent_next {α : Type} {i : Service} {g : Option (CString × CString)} {c : Command}
    {s : Answered} (hadds : c.addsShare = false)
    (hg : ∀ file, g = some file → file ∉ s.tables.sharedFiles) {file : CString × CString}
    (h : (shareProtocol α i).next g c (Answered.exec c s).1 = some file) :
    file ∉ (Answered.exec c s).2.tables.sharedFiles := by
  have hold : g = some file → file ∉ (Answered.exec c s).2.tables.sharedFiles :=
    fun heq hmem => hg file heq ((sharedFiles_exec hadds s).subset hmem)
  cases c with
  | processResultOne query save =>
    cases query with
    | shareFileAll md5 filename =>
      rw [exec_of_sql rfl] at h hold ⊢
      cases hreply : resultOne (Query.result s.tables (.shareFileAll md5 filename)) save with
      | noRow =>
        rw [Store.exec, hreply] at h
        cases h
        exact notMem_sharedFiles hreply
      | _ =>
        rw [Store.exec, hreply] at h
        exact hold h
    | _ => exact hold h
  | mysqlQuery statement =>
    cases statement with
    | insertShareFile => cases hadds
    | _ => exact hold h
  | _ => exact hold h

theorem ShareGuarded.step {P : ServicePool} (h : ShareGuarded P) {i : Service} {c : Command}
    {next : Reply c → Handler Unit} (hp : P.procs i = .call c next)
    (hallowed : (shareProtocol Unit i).allowed (P.stages i) c) :
    ShareGuarded (P.step answered (shareProtocol Unit) i) := by
  rw [Pool.step_of_call hp]
  cases hadds : c.addsShare with
  | true =>
    cases c with
    | mysqlQuery statement =>
      cases statement with
      | insertShareFile user md5 createtime filename pv =>
        obtain ⟨rfl, hstage⟩ := hallowed
        refine ⟨?_, fun file hfile => ?_⟩
        · have happend : (P.store.tables.sharedFiles ++ [(md5, filename)]).Nodup := by
            rw [List.nodup_append_comm, List.singleton_append, List.nodup_cons]
            exact ⟨h.absent _ hstage, h.once⟩
          rw [answered_exec, exec_of_sql rfl]
          simpa [SharedOnce, Tables.sharedFiles] using happend
        · simp [shareProtocol] at hfile
      | _ => cases hadds
    | _ => cases hadds
  | false =>
    refine ⟨h.once.sublist (sharedFiles_exec hadds P.store), fun file hfile => ?_⟩
    by_cases hi : i = .dealfile
    · subst hi
      dsimp only at hfile
      rw [Function.update_self] at hfile
      exact absent_next hadds h.absent hfile
    · dsimp only at hfile
      rw [Function.update_of_ne (Ne.symm hi)] at hfile
      exact fun hmem => h.absent file hfile ((sharedFiles_exec hadds P.store).subset hmem)

theorem sharedOnce_of_answered {tables : Tables} (hempty : tables.shareFileList = [])
    {requests : Service → List Request} (hservice : ∀ i, ∀ r ∈ requests i, r.service = some i)
    (answers : Nat → (c : Command) → Reply c) (schedule : List Service) :
    SharedOnce ((Pool.start (shareProtocol Unit) (fun i => process (requests i))
      ⟨tables, answers⟩).run answered (shareProtocol Unit) schedule).store.tables := by
  have hstart : ShareGuarded (Pool.start (shareProtocol Unit) (fun i => process (requests i))
      ⟨tables, answers⟩) := by
    refine ⟨?_, fun file hfile => by cases hfile⟩
    rw [Pool.start, SharedOnce, Tables.sharedFiles, hempty]
    exact List.nodup_nil
  have hguarded := Pool.invariant_of_step (J := ShareGuarded)
    (fun P i c next hp hallowed hP => hP.step hp hallowed)
    (fun i => conforms_process (hservice i) none) hstart schedule
  exact hguarded.once

/-! ## With the texts -/

theorem worded_process {requests : List Request} (h : ∀ r ∈ requests, r.WellWorded) :
    (process requests).Issues Command.Worded := by
  induction requests with
  | nil => exact trivial
  | cons r rest ih =>
    obtain ⟨hr, hrest⟩ := List.forall_mem_cons.mp h
    exact (worded_handler hr).bind fun _ => ih hrest

/-- The statements of well-worded requests are in order as long as the counts are ints. -/
theorem inOrder_of_process {P : ServicePool} {requests : Service → List Request}
    (hP : P.procs = fun i => process (requests i)) (h : ∀ i, ∀ r ∈ requests i, r.WellWorded)
    {schedule : List Service}
    (hint : P.Obeys answered (shareProtocol Unit) (fun P i => P.Issuing Command.InInt i) schedule) :
    P.Obeys answered (shareProtocol Unit) (fun P i => P.Issuing Command.InOrder i) schedule := by
  have hworded : P.Obeys answered (shareProtocol Unit) (fun P i => P.Issuing Command.Worded i)
      schedule := Pool.obeys_of_issues (fun i => hP ▸ worded_process (h i)) schedule
  exact (hworded.and hint).mono fun P i h => (h.1.and h.2).mono fun _ hc => hc.1.inOrder hc.2

/-- What each process is given to do. -/
def sampleRequests : Service → List Request
  | .upload => [.upload (bytes "t") (bytes "u") (bytes "f") (bytes "m") 1 (bytes "a") []]
  | .md5 => [.dealMd5 (bytes "t") (bytes "v") (bytes "m") (bytes "f")]
  | .dealfile => [.shareFile .ziplist (bytes "t") (bytes "u") (bytes "m") (bytes "f"),
      .shareFile .ziplist (bytes "t") (bytes "v") (bytes "m") (bytes "f")]
  | .dealsharefile => [.cancelShareFile (bytes "u") (bytes "m") (bytes "f"),
      .saveFile (bytes "t") (bytes "w") (bytes "m") (bytes "f")]

/-- `share_file` looks for `'1' and '1'='2'` and stores the value of it, which is 0. -/
def quotedShares : Service → List Request
  | .dealfile => [.shareFile .ziplist (bytes "t") (bytes "u") (bytes "m") (bytes "1' and '1'='2"),
      .shareFile .ziplist (bytes "t") (bytes "u") (bytes "m") (bytes "2' and '1'='2")]
  | _ => []

end HfDfs
