import HfDfs.Cgi.Md5
import HfDfs.Cgi.MyFiles
import HfDfs.Properties.Bodies
import HfDfs.Properties.Deletion

/-!
# What a wrong token reveals

`md5`, `dealfile` and `myfiles` ask for a token. A request with a wrong one
should be answered alike whatever the tables hold, and should change
neither them nor the two keys of the shared files. `md5` keeps this.
`myfiles` looks the number of files up before it looks at the answer of
`verify_token`. `dealfile` compares the token of an earlier request when
the body lacks a member in front of its own token. A body on which the
parser is undefined counts as one with a wrong token.
-/

namespace HfDfs

set_option autoImplicit false

open Procedures Procedures.Procedure Zlexcount CJson JsonText

inductive GatedProgram where
  | md5
  | dealfile
  | myfiles
deriving DecidableEq, Repr

def GatedProgram.serve (env : Environment) (r : HttpRequest) (memory : Memory) (s : Store) :
    GatedProgram → Option (Response × Store)
  | md5 => respond (md5Main env r) s
  | dealfile => HfDfs.dealfile.serve env r memory s
  | myfiles => HfDfs.myfiles.serve env r memory s

/-- The body has a `user` and a `token`, both strings. -/
def Json.Names (root : Json) (user token : CString) : Prop :=
  ∃ child1 child2, root.getObjectItem (bytes "user") = some child1 ∧
    child1.valuestring = some user ∧ root.getObjectItem (bytes "token") = some child2 ∧
    child2.valuestring = some token

/-- One response for all contents of the tables, which stay as they are. -/
def Hides (serve : Store → Option (Response × Store)) (s : Store) : Prop :=
  ∃ response, ∀ tables, ∃ t, serve { s with tables := tables } = some (response, t) ∧
    t.tables = tables ∧ t.redis FILE_PUBLIC_ZSET = s.redis FILE_PUBLIC_ZSET ∧
    t.redis FILE_NAME_HASH = s.redis FILE_NAME_HASH

/-- The body names a user and a token that Redis does not hold under that user. -/
def WrongToken (r : HttpRequest) (s : Store) : Prop :=
  r.root = none ∨ ∃ root user token, r.root = some (some root) ∧ root.Names user token ∧
    s.redis.token user ≠ some token

def TokenGate (program : GatedProgram) (env : Environment) (r : HttpRequest) (memory : Memory)
    (s : Store) : Prop :=
  WrongToken r s → Hides (fun s => program.serve env r memory s) s

section Hides

variable {serve : Store → Option (Response × Store)} {s : Store}

theorem hides_const (response : Response)
    (h : ∀ tables,
      serve { s with tables := tables } = some (response, { s with tables := tables })) :
    Hides serve s :=
  ⟨response, fun tables => ⟨_, h tables, rfl, rfl, rfl⟩⟩

theorem not_hides_of_undefined (h : ∀ tables, serve { s with tables := tables } = none) :
    ¬ Hides serve s := by
  rintro ⟨response, hall⟩
  obtain ⟨t, ht, -⟩ := hall s.tables
  rw [h] at ht
  cases ht

/-- Two contents of the tables that are answered differently. -/
theorem not_hides_of_responses (tables tables' : Tables)
    (hne : (serve { s with tables := tables }).map Prod.fst ≠
      (serve { s with tables := tables' }).map Prod.fst) : ¬ Hides serve s := by
  rintro ⟨response, hall⟩
  obtain ⟨t, ht, -⟩ := hall tables
  obtain ⟨t', ht', -⟩ := hall tables'
  rw [ht, ht'] at hne
  exact hne rfl

end Hides

/-- The stored token, if there is one, fits `tmp_token[128]`. -/
def Redis.TokenFits (r : Redis) (user : CString) : Prop :=
  ∀ text, r.token user = some text → text.length < 128

theorem hides_guardToken (user token : CString) (command : Handler (Option Response)) (s : Store) :
    Hides (respond (guardToken user token command)) s ↔
      s.redis.TokenFits user ∧
        (s.redis.token user = some token → Hides (respond command) s) := by
  have hrespond := fun tables => respond_guardToken user token command { s with tables := tables }
  cases htoken : s.redis.token user with
  | none =>
    refine iff_of_true (hides_const (.status (bytes "111")) fun tables => ?_)
      ⟨fun text h => ?_, fun h => by cases h⟩
    · rw [hrespond]
      simp only [htoken]
    · rw [htoken] at h
      cases h
  | some text =>
    rcases Nat.lt_or_ge text.length 128 with hlt | hge
    · have hfits : s.redis.TokenFits user := by
        intro text' h
        rw [htoken] at h
        cases h
        exact hlt
      rcases eq_or_ne token text with rfl | hne
      · have heq : ∀ tables, respond (guardToken user token command) { s with tables := tables } =
            respond command { s with tables := tables } := fun tables => by
          rw [hrespond]
          simp only [htoken, if_neg hlt.not_ge, if_true]
        simp only [Hides, heq]
        exact ⟨fun h => ⟨hfits, fun _ => h⟩, fun h => h.2 trivial⟩
      · refine iff_of_true (hides_const (.status (bytes "111")) fun tables => ?_)
          ⟨hfits, fun h => absurd (Option.some.inj h).symm hne⟩
        rw [hrespond]
        simp only [htoken, if_neg hlt.not_ge, if_neg hne]
    · refine iff_of_false (not_hides_of_undefined fun tables => ?_) fun h => ?_
      · rw [hrespond]
        simp only [htoken, if_pos hge]
      · exact absurd (h.1 text htoken) hge.not_gt

/-! ## What the commands of `dealfile` show -/

/-- The command, once run, does not ask the tables. -/
def DealFile.tableless (env : Environment) (cmd md5 filename : CString) (r : Redis) : Prop :=
  (cmd = bytes "share" → r.presence (fileid md5 filename) env.enc ≠ 0) ∧
  (cmd = bytes "del" → r.presence (fileid md5 filename) env.enc ≠ 0 ∧
    r.presence (fileid md5 filename) env.enc ≠ 1) ∧
  cmd ≠ bytes "pv"

/-- Tables in which everybody has files and nothing is shared. -/
def Tables.plenty (user md5 filename : CString) : Tables :=
  { Tables.empty with
    fileInfo := fun _ => some ⟨[], [], 0, [], 1⟩
    userFileList := [⟨user, md5, [], filename, 0, 0⟩]
    userFileCount := fun _ => some 1 }

section Commands

variable (env : Environment) (user md5 filename : CString) (s : Store)

theorem hides_share :
    Hides (fun s => some ((DealFile.command env (bytes "share") user md5 filename).run store s)) s ↔
      s.redis.presence (fileid md5 filename) env.enc ≠ 0 := by
  have hrun : ∀ t : Store, (DealFile.command env (bytes "share") user md5 filename).run store t =
      (shareStatus ((shareFile env.enc env.now user md5 filename).run store t).1,
        ((shareFile env.enc env.now user md5 filename).run store t).2) := fun t => by
    simp [DealFile.command, run_bind]
  simp only [hrun, run_shareFile]
  by_cases h0 : s.redis.presence (fileid md5 filename) env.enc = 0
  · refine iff_of_false ?_ fun h => h h0
    refine not_hides_of_responses .empty
      { Tables.empty with shareFileList := [⟨user, md5, [], filename, 0⟩] } ?_
    simp [h0, Tables.empty, Tables.shared, ShareFile.isFile, shareStatus, bytes_eq]
  · refine iff_of_true ?_ h0
    by_cases h1 : s.redis.presence (fileid md5 filename) env.enc = 1
    · exact hides_const (shareStatus (-2)) fun tables => by simp [h1]
    · exact hides_const (shareStatus (-1)) fun tables => by simp [h1, h0]

theorem hides_del :
    Hides (fun s => some ((DealFile.command env (bytes "del") user md5 filename).run store s)) s ↔
      s.redis.presence (fileid md5 filename) env.enc ≠ 0 ∧
        s.redis.presence (fileid md5 filename) env.enc ≠ 1 := by
  have hdel : bytes "del" ≠ bytes "share" := by decide
  have hrun : ∀ t : Store, (DealFile.command env (bytes "del") user md5 filename).run store t =
      (delStatus ((delFile env.enc user md5 filename).run store t).1,
        ((delFile env.enc user md5 filename).run store t).2) := fun t => by
    simp [DealFile.command, run_bind, hdel]
  simp only [hrun]
  by_cases hanswer : s.redis.presence (fileid md5 filename) env.enc = 0 ∨
      s.redis.presence (fileid md5 filename) env.enc = 1
  · refine iff_of_false ?_ fun h => hanswer.elim h.1 h.2
    refine not_hides_of_responses .empty (.plenty user md5 filename) ?_
    have hfails : ¬ Store.delGoesOn { s with tables := .empty } env.enc user md5 filename :=
      fun h => h.2 rfl
    have hgoes : Store.delGoesOn { s with tables := .plenty user md5 filename } env.enc user md5
        filename := by
      refine Store.delGoesOn_iff.mpr ⟨hanswer.symm, fun _ => ?_, ?_⟩
      · exact Option.some_ne_none _
      · exact Option.some_ne_none _
    have hinfo : (Tables.plenty user md5 filename).fileInfo md5 ≠ none := Option.some_ne_none _
    simp [result_delFile, hfails, hgoes, hinfo, delStatus, bytes_eq]
  · rw [not_or] at hanswer
    refine iff_of_true (hides_const (delStatus (-1)) fun tables => ?_) hanswer
    simp [run_delFile, hanswer.1, hanswer.2]

theorem not_hides_pv :
    ¬ Hides
      (fun s => some ((DealFile.command env (bytes "pv") user md5 filename).run store s)) s := by
  have hshare : bytes "pv" ≠ bytes "share" := by decide
  have hdel : bytes "pv" ≠ bytes "del" := by decide
  have hrun : ∀ t : Store, (DealFile.command env (bytes "pv") user md5 filename).run store t =
      (pvStatus ((pvFile user md5 filename).run store t).1,
        ((pvFile user md5 filename).run store t).2) := fun t => by
    simp [DealFile.command, run_bind, hshare, hdel]
  simp only [hrun, run_pvFile]
  refine not_hides_of_responses .empty (.plenty user md5 filename) ?_
  simp [Tables.empty, Tables.plenty, UserFile.is, pvStatus, bytes_eq]

theorem hides_dealfile_command (cmd : CString) :
    Hides (respond do return some (← DealFile.command env cmd user md5 filename)) s ↔
      DealFile.tableless env cmd md5 filename s.redis := by
  rw [show respond (do return some (← DealFile.command env cmd user md5 filename)) = _ from
    funext (respond_some _)]
  by_cases hshare : cmd = bytes "share"
  · subst hshare
    rw [hides_share]
    exact ⟨fun h => ⟨fun _ => h, fun h' => absurd h' (by decide), by decide⟩, fun h => h.1 rfl⟩
  by_cases hdel : cmd = bytes "del"
  · subst hdel
    rw [hides_del]
    exact ⟨fun h => ⟨fun h' => absurd h' (by decide), fun _ => h, by decide⟩, fun h => h.2.1 rfl⟩
  by_cases hpv : cmd = bytes "pv"
  · subst hpv
    exact iff_of_false (not_hides_pv env user md5 filename s) fun h => h.2.2 rfl
  · refine iff_of_true (hides_const .nothing fun tables => ?_)
      ⟨fun h => absurd h hshare, fun h => absurd h hdel, hpv⟩
    simp [DealFile.command, hshare, hdel, hpv]

end Commands

/-! ## The programs -/

/-- What the request has to be for its wrong token to be noticed in time. -/
def gateOk (env : Environment) (r : HttpRequest) (memory : Memory) (s : Store) : GatedProgram → Prop
  | .md5 =>
    match r.read with
    | .undefined => False
    | .text root =>
      ∃ info, getMd5Info root = some info ∧ ∀ i, info = some i → s.redis.TokenFits i.user
    | _ => True
  | .dealfile =>
    ∃ ret cmd, queryParseKeyValue 20 r.queryString (bytes "cmd") memory.cmd = some (ret, cmd) ∧
      match r.read with
      | .undefined => False
      | .text root =>
        ∃ ret arrays, DealFile.getJsonInfo root memory.arrays = some (ret, arrays) ∧
          s.redis.TokenFits (arrays .user) ∧
          (¬ Complete DealFile.fields root → s.redis.token (arrays .user) = some (arrays .token) →
            DealFile.tableless env cmd (arrays .md5) (arrays .filename) s.redis)
      | _ => True
  | .myfiles =>
    ∃ ret cmd, queryParseKeyValue 20 r.queryString (bytes "cmd") memory.cmd = some (ret, cmd) ∧
      match r.read with
      | .undefined => False
      | .text root => cmd ≠ bytes "count" ∧
        ∃ ret arrays start count,
          getFileslistJsonInfo root memory.arrays = some (ret, arrays, some start, some count) ∧
          s.redis.TokenFits (arrays .user)
      | _ => True

theorem Json.Names.unique {root : Json} {user token user' token' : CString}
    (h : root.Names user token) (h' : root.Names user' token') : user = user' ∧ token = token' := by
  obtain ⟨child1, child2, h1, huser, h2, htoken⟩ := h
  obtain ⟨child1', child2', h1', huser', h2', htoken'⟩ := h'
  obtain rfl : child1 = child1' := Option.some.inj (h1.symm.trans h1')
  obtain rfl : child2 = child2' := Option.some.inj (h2.symm.trans h2')
  exact ⟨Option.some.inj (huser.symm.trans huser'), Option.some.inj (htoken.symm.trans htoken')⟩

theorem WrongToken.ne {r : HttpRequest} {s : Store} (h : WrongToken r s) {root : Json}
    (hread : r.read = .text (some root)) {user token : CString} (hnames : root.Names user token) :
    s.redis.token user ≠ some token := by
  have hroot := HttpRequest.root_of_read hread
  rcases h with hnone | ⟨root', user', token', hroot', hnames', hne⟩
  · cases hroot.symm.trans hnone
  · cases hroot.symm.trans hroot'
    obtain ⟨rfl, rfl⟩ := hnames.unique hnames'
    exact hne

theorem names_of_getMd5Info {root : Option Json} {info : Md5Info}
    (h : getMd5Info root = some (some info)) :
    ∃ object, root = some object ∧ object.Names info.user info.token := by
  cases root with
  | none => simp [getMd5Info] at h
  | some root =>
    cases h1 : root.getObjectItem (bytes "user") with
    | none => simp [getMd5Info, h1] at h
    | some child1 =>
      cases h2 : root.getObjectItem (bytes "md5") with
      | none => simp [getMd5Info, h1, h2, Option.bind_eq_some_iff] at h
      | some child2 =>
        cases h3 : root.getObjectItem (bytes "fileName") with
        | none => simp [getMd5Info, h1, h2, h3, Option.bind_eq_some_iff] at h
        | some child3 =>
          cases h4 : root.getObjectItem (bytes "token") with
          | none => simp [getMd5Info, h1, h2, h3, h4, Option.bind_eq_some_iff] at h
          | some child4 =>
            simp only [getMd5Info, h1, h2, h3, h4, Option.bind_eq_bind,
              Option.bind_eq_some_iff, Option.pure_def, Option.some.injEq] at h
            obtain ⟨user, huser, md5, -, filename, -, token, htoken, rfl⟩ := h
            exact ⟨root, rfl, child1, child4, h1, (strcpy_eq_some.mp huser).1, h4,
              (strcpy_eq_some.mp htoken).1⟩

theorem names_of_decode {root : Option Json} {fields : List Field} (huser : Field.user ∈ fields)
    (htoken : Field.token ∈ fields) {arrays arrays' : Arrays}
    (h : decode fields root arrays = some (0, arrays')) :
    ∃ object, root = some object ∧ object.Names (arrays' .user) (arrays' .token) := by
  cases root with
  | none => simp [decode] at h
  | some root =>
    obtain ⟨child1, h1, hu⟩ := copyMembers_get h huser
    obtain ⟨child2, h2, ht⟩ := copyMembers_get h htoken
    exact ⟨root, rfl, child1, child2, h1, hu, h2, ht⟩

/-- The positions are read only behind a complete user and token. -/
theorem names_of_getFileslistJsonInfo {root : Option Json} {arrays arrays' : Arrays}
    {ret start : Int} {count : Option Int}
    (h : getFileslistJsonInfo root arrays = some (ret, arrays', some start, count)) :
    ∃ object, root = some object ∧ object.Names (arrays' .user) (arrays' .token) := by
  cases hdecode : decode MyFiles.fields root arrays with
  | none => simp [getFileslistJsonInfo, hdecode] at h
  | some result =>
    obtain ⟨ret', decoded⟩ := result
    by_cases h0 : ret' = 0
    · subst h0
      have hsame : decoded = arrays' := by
        cases h3 : root.bind (·.getObjectItem (bytes "start")) with
        | none => simp [getFileslistJsonInfo, hdecode, h3] at h
        | some child3 =>
          cases h4 : root.bind (·.getObjectItem (bytes "count")) <;>
            simp_all [getFileslistJsonInfo]
      rw [hsame] at hdecode
      exact names_of_decode (by decide) (by decide) hdecode
    · simp [getFileslistJsonInfo, hdecode, h0] at h

section Programs

variable {env : Environment} {r : HttpRequest} {s : Store} (memory : Memory) (h : WrongToken r s)
include h

theorem hides_md5 : Hides (respond (md5Main env r)) s ↔ gateOk env r memory s .md5 := by
  rw [gateOk]
  cases hread : r.read with
  | noData =>
    exact iff_of_true (hides_const .noData fun tables => by simp [md5Main, respond, hread]) trivial
  | unread =>
    exact iff_of_true (hides_const .nothing fun tables => by simp [md5Main, respond, hread]) trivial
  | undefined =>
    exact iff_of_false (not_hides_of_undefined fun tables => by simp [md5Main, respond, hread]) id
  | text root =>
    change Hides _ s ↔
      ∃ info, getMd5Info root = some info ∧ ∀ i, info = some i → s.redis.TokenFits i.user
    cases hinfo : getMd5Info root with
    | none =>
      refine iff_of_false (not_hides_of_undefined fun tables => ?_) ?_
      · simp [md5Main, respond, hread, hinfo]
      · rintro ⟨info, hsome, -⟩
        cases hsome
    | some info =>
      cases info with
      | none =>
        refine iff_of_true (hides_const .nothing fun tables => ?_)
          ⟨none, rfl, fun i h => by cases h⟩
        simp [md5Main, respond, hread, hinfo]
      | some i =>
        have hmain : md5Main env r = guardToken i.user i.token (do
            return some (md5Status (← dealMd5 env.now i.user i.md5 i.filename))) := by
          simp only [md5Main, hread, hinfo]
        obtain ⟨object, rfl, hnames⟩ := names_of_getMd5Info hinfo
        rw [hmain, hides_guardToken]
        constructor
        · rintro ⟨hfits, -⟩
          exact ⟨some i, rfl, fun j hj => Option.some.inj hj ▸ hfits⟩
        · rintro ⟨info, hsome, hfits⟩
          exact ⟨hfits i (Option.some.inj hsome).symm,
            fun heq => absurd heq (h.ne hread hnames)⟩

omit h in
/-- A turn is undefined, or answers without looking at the body, or the program decides. -/
theorem hides_turn (program : Program) {ok : CString → Option Json → Prop}
    (hbody : ∀ cmd root, r.read = .text root →
      (Hides (fun s => program.outcome env cmd root memory.arrays s) s ↔ ok cmd root)) :
    Hides (fun s => program.serve env r memory s) s ↔
      ∃ ret cmd, queryParseKeyValue 20 r.queryString (bytes "cmd") memory.cmd = some (ret, cmd) ∧
        match r.read with
        | .undefined => False
        | .text root => ok cmd root
        | _ => True := by
  cases hquery : queryParseKeyValue 20 r.queryString (bytes "cmd") memory.cmd with
  | none =>
    refine iff_of_false (not_hides_of_undefined fun tables => serve_undefined hquery) ?_
    rintro ⟨ret, cmd, hsome, -⟩
    cases hsome
  | some result =>
    obtain ⟨ret, cmd⟩ := result
    cases hread : r.read with
    | noData =>
      exact iff_of_true (hides_const .noData fun tables => serve_noData hread hquery)
        ⟨ret, cmd, rfl, trivial⟩
    | unread =>
      exact iff_of_true (hides_const .nothing fun tables => serve_unread hread hquery)
        ⟨ret, cmd, rfl, trivial⟩
    | undefined =>
      refine iff_of_false (not_hides_of_undefined fun tables => serve_undefined_body hread) ?_
      rintro ⟨ret, cmd, -, hfalse⟩
      exact hfalse
    | text root =>
      have hserve : ∀ t, program.serve env r memory t =
          program.outcome env cmd root memory.arrays t := fun t => serve_text hread hquery
      simp only [hserve, hbody cmd root hread]
      constructor
      · intro hok
        exact ⟨ret, cmd, rfl, hok⟩
      · rintro ⟨ret', cmd', hsome, hok⟩
        rw [Option.some.injEq, Prod.mk.injEq] at hsome
        rwa [hsome.2]

theorem hides_dealfile :
    Hides (fun s => dealfile.serve env r memory s) s ↔ gateOk env r memory s .dealfile := by
  refine hides_turn memory dealfile fun cmd root hread => ?_
  cases hdecode : DealFile.getJsonInfo root memory.arrays with
  | none =>
    refine iff_of_false (not_hides_of_undefined fun tables => ?_) ?_
    · simp [Program.outcome, dealfile, hdecode]
    · rintro ⟨ret, arrays, hsome, -⟩
      cases hsome
  | some result =>
    obtain ⟨ret, arrays⟩ := result
    have houtcome : ∀ t, dealfile.outcome env cmd root memory.arrays t =
        respond (guardToken (arrays .user) (arrays .token) (do
          return some (← DealFile.command env cmd (arrays .user) (arrays .md5)
            (arrays .filename)))) t := by
      simp [Program.outcome, dealfile, hdecode, DealFile.request]
    simp only [houtcome]
    rw [hides_guardToken, hides_dealfile_command]
    constructor
    · rintro ⟨hfits, htoken⟩
      exact ⟨ret, arrays, rfl, hfits, fun _ heq => htoken heq⟩
    · rintro ⟨ret', arrays', hsome, hfits, htoken⟩
      rw [Option.some.injEq, Prod.mk.injEq] at hsome
      obtain ⟨rfl, rfl⟩ := hsome
      refine ⟨hfits, fun heq => htoken (fun hcomplete => ?_) heq⟩
      -- a complete body brings its own token, which is the wrong one
      obtain ⟨texts, -, hall⟩ := hcomplete.texts (by decide)
      have hzero : ret = 0 := by
        have hret := hall memory.arrays
        rw [← DealFile.getJsonInfo, hdecode, Option.some.injEq, Prod.mk.injEq] at hret
        exact hret.1
      subst hzero
      obtain ⟨object, rfl, hnames⟩ := names_of_decode (by decide) (by decide) hdecode
      exact h.ne hread hnames heq

omit h in
/-- The number of files is in the answer whatever the token. -/
theorem not_hides_count (root : Option Json) : ¬ Hides
    (fun s => myfiles.outcome env (bytes "count") root memory.arrays s) s := by
  cases hdecode : getCountJsonInfo root memory.arrays with
  | none =>
    refine not_hides_of_undefined fun tables => ?_
    simp [Program.outcome, myfiles, hdecode]
  | some result =>
    obtain ⟨ret, arrays⟩ := result
    have houtcome : ∀ t, myfiles.outcome env (bytes "count") root memory.arrays t =
        respond (MyFiles.countRequest arrays) t := fun t => by
      simp [Program.outcome, myfiles, hdecode]
    simp only [houtcome, respond_countRequest]
    cases htoken : s.redis.token (arrays .user) with
    | none =>
      refine not_hides_of_responses .empty (.plenty [] [] []) ?_
      simp [htoken, run_getUserFilesCount, Tables.empty, Tables.plenty]
    | some text =>
      rcases Nat.lt_or_ge text.length 128 with hlt | hge
      · refine not_hides_of_responses .empty (.plenty [] [] []) ?_
        simp [htoken, hlt.not_ge, run_getUserFilesCount, Tables.empty, Tables.plenty]
      · refine not_hides_of_undefined fun tables => ?_
        simp [htoken, hge]

theorem hides_myfiles :
    Hides (fun s => myfiles.serve env r memory s) s ↔ gateOk env r memory s .myfiles := by
  refine hides_turn memory myfiles fun cmd root hread => ?_
  by_cases hcount : cmd = bytes "count"
  · subst hcount
    exact iff_of_false (not_hides_count memory root) fun hok => hok.1 rfl
  cases hdecode : getFileslistJsonInfo root memory.arrays with
  | none =>
    refine iff_of_false (not_hides_of_undefined fun tables => ?_) ?_
    · simp [Program.outcome, myfiles, hcount, hdecode]
    · rintro ⟨-, ret, arrays, start, count, hsome, -⟩
      cases hsome
  | some result =>
    obtain ⟨ret, arrays, start, count⟩ := result
    cases start with
    | none =>
      refine iff_of_false (not_hides_of_undefined fun tables => ?_) ?_
      · simp [Program.outcome, myfiles, hcount, hdecode]
      · rintro ⟨-, ret, arrays, start, count, hsome, -⟩
        cases hsome
    | some start =>
      cases count with
      | none =>
        refine iff_of_false (not_hides_of_undefined fun tables => ?_) ?_
        · simp [Program.outcome, myfiles, hcount, hdecode]
        · rintro ⟨-, ret, arrays, start, count, hsome, -⟩
          cases hsome
      | some count =>
        have houtcome : ∀ t, myfiles.outcome env cmd root memory.arrays t =
            respond (guardToken (arrays .user) (arrays .token)
              (getUserFilelist cmd (arrays .user) start count)) t := fun t => by
          simp [Program.outcome, myfiles, hcount, hdecode, MyFiles.listRequest]
        simp only [houtcome]
        rw [hides_guardToken]
        constructor
        · rintro ⟨hfits, -⟩
          exact ⟨hcount, ret, arrays, start, count, rfl, hfits⟩
        · rintro ⟨-, ret', arrays', start', count', hsome, hfits⟩
          simp only [Option.some.injEq, Prod.mk.injEq] at hsome
          obtain ⟨-, rfl, -, -⟩ := hsome
          obtain ⟨object, rfl, hnames⟩ := names_of_getFileslistJsonInfo hdecode
          exact ⟨hfits, fun heq => absurd heq (h.ne hread hnames)⟩

end Programs

/-- For every request to one of the programs, whatever its memory, Redis and the tables: the
gate holds exactly when the condition does. -/
theorem tokenGate_iff (program : GatedProgram) (env : Environment) (r : HttpRequest) (memory : Memory)
    (s : Store) :
    TokenGate program env r memory s ↔ (WrongToken r s → gateOk env r memory s program) := by
  refine imp_congr_right fun h => ?_
  cases program with
  | md5 => exact hides_md5 memory h
  | dealfile => exact hides_dealfile memory h
  | myfiles => exact hides_myfiles memory h

/-- The name `u` and a token that is not the one of `u`. -/
def forgedBody : CString := bytes "\x7b\"user\":\"u\",\"token\":\"y\"\x7d"

def forged (cmd : String) : HttpRequest := ⟨24, bytes cmd, forgedBody⟩

def forgedMembers : List (CString × Datum) :=
  [(bytes "user", .string (bytes "u")), (bytes "token", .string (bytes "y"))]

theorem read_forged (cmd : String) : (forged cmd).read = .text (some (objectJson forgedMembers)) := by
  have hprint : forgedBody = valueText false (.ofDatum (.object forgedMembers)) 0 := by
    decide
  have hcarries : (forged cmd).Carries (.object forgedMembers) :=
    carries_of_printed ⟨by decide, (by decide : 0 ∉ bytes "u"), by decide,
      (by decide : 0 ∉ bytes "y"), trivial⟩ hprint rfl (by decide : forgedBody.length + 8 ≤ 4096)
  exact hcarries.read

theorem wrongToken_forged (cmd : String) {s : Store}
    (h : s.redis.token (bytes "u") ≠ some (bytes "y")) : WrongToken (forged cmd) s :=
  Or.inr ⟨_, bytes "u", bytes "y", HttpRequest.root_of_read (read_forged cmd),
    ⟨_, _, rfl, rfl, rfl, rfl⟩, h⟩

/-- `myfiles` tells anybody how many files `u` has. `dealfile` counts a download for `u`, whose
token `x` is still in the array, when somebody else sends the token `y` and no md5. -/
theorem not_tokenGate_forged :
    ¬ TokenGate .myfiles ⟨bytes "t", .ziplist⟩ (forged "cmd=count") ⟨[], fun _ => []⟩
      Store.empty ∧
    ¬ TokenGate .dealfile ⟨bytes "t", .ziplist⟩ (forged "cmd=pv") ⟨[], fun _ => bytes "x"⟩
      { Store.empty with
        redis := Function.update Redis.empty (bytes "u") (some (.string (bytes "x"))) } := by
  refine ⟨fun h => ?_, fun h => ?_⟩
  · refine not_hides_of_responses .empty (.plenty [] [] []) ?_ (h (wrongToken_forged _ (by decide)))
    have hcmd : queryParseKeyValue 20 (forged "cmd=count").queryString (bytes "cmd") [] =
        some (0, bytes "count") := by decide
    rw [GatedProgram.serve, GatedProgram.serve, serve_text (read_forged _) hcmd,
      serve_text (read_forged _) hcmd]
    decide
  · refine not_hides_of_responses .empty (.plenty (bytes "u") (bytes "x") (bytes "x")) ?_
      (h (wrongToken_forged _ (by decide)))
    have hcmd : queryParseKeyValue 20 (forged "cmd=pv").queryString (bytes "cmd") [] =
        some (0, bytes "pv") := by decide
    rw [GatedProgram.serve, GatedProgram.serve, serve_text (read_forged _) hcmd,
      serve_text (read_forged _) hcmd]
    decide

end HfDfs
