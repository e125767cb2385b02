import HfDfs.Cgi.DealFile
import HfDfs.Cgi.DealShareFile
import HfDfs.Cgi.MyFiles
import HfDfs.Properties.Bodies

/-!
# What a request takes over from earlier ones

Two histories of one process end with different arrays. A request is
independent of them when after both it comes to the servers, and is
answered alike by them, whatever they do. It is, exactly when it brings its
own command and all the members its command reads; otherwise an array still
holds what somebody else sent.
-/

namespace HfDfs

set_option autoImplicit false

open Procedures Procedures.Procedure CJson JsonText

def Independent (program : Program) (env : Environment) (r : HttpRequest) : Prop :=
  ∀ (start : Memory) (history history' : List (Environment × HttpRequest)) (memory memory' : Memory),
    program.after history start = some memory → program.after history' start = some memory' →
    ∃ left left' handler handler', program.turn env r memory = some (left, handler) ∧
      program.turn env r memory' = some (left', handler') ∧ Alike handler handler'

def blank : Memory := ⟨[], fun _ => []⟩

def Reachable (program : Program) (memory : Memory) : Prop :=
  ∃ history, program.after history blank = some memory

/-- The program handles two commands with one body alike. -/
def Agree (program : Program) (env : Environment) (root : Option Json) (cmd cmd' : CString)
    (arrays arrays' : Arrays) : Prop :=
  ∃ left left' handler handler', program env cmd root arrays = some (left, handler) ∧
    program env cmd' root arrays' = some (left', handler') ∧ Alike handler handler'

/-- Two reachable memories make a difference to a body under the command `cmd` picks. -/
def Leaks (program : Program) (env : Environment) (root : Option Json) (cmd : Memory → CString) :
    Prop :=
  ∃ memory memory', Reachable program memory ∧ Reachable program memory' ∧
    ¬ Agree program env root (cmd memory) (cmd memory') memory.arrays memory'.arrays

/-- What a program needs from a request, given as a condition on command and body, is
enough, and nothing of it can be left out. -/
structure Needs (program : Program) (env : Environment) (needs : CString → Option Json → Prop) :
    Prop where
  enough {cmd : CString} {root : Option Json} : needs cmd root → ∀ arrays arrays',
    Agree program env root cmd cmd arrays arrays'
  body {cmd : CString} {root : Option Json} : ¬ needs cmd root →
    Leaks program env root fun _ => cmd
  command (root : Option Json) : Leaks program env root Memory.cmd

def independentOk (needs : CString → Option Json → Prop) (r : HttpRequest) : Prop :=
  match r.read with
  | .noData => queryParseKeyValue 20 r.queryString (bytes "cmd") [] ≠ none
  | .unread => queryParseKeyValue 20 r.queryString (bytes "cmd") [] ≠ none
  | .undefined => False
  | .text root =>
    ∃ cmd, queryParseKeyValue 20 r.queryString (bytes "cmd") [] = some (0, cmd) ∧ needs cmd root

section

variable {program : Program} {env : Environment} {needs : CString → Option Json → Prop}
variable {r : HttpRequest} {memory memory' : Memory}

/-- Whether the command can be read does not depend on the memory. -/
theorem query_defined (h : queryParseKeyValue 20 r.queryString (bytes "cmd") [] ≠ none)
    (value : CString) :
    ∃ ret cmd, queryParseKeyValue 20 r.queryString (bytes "cmd") value = some (ret, cmd) := by
  rcases queryParseKeyValue_cases 20 r.queryString (bytes "cmd") with hkeep | ⟨cmd, hcmd⟩ | hnone
  · exact ⟨-1, value, hkeep value⟩
  · exact ⟨0, cmd, hcmd value⟩
  · exact absurd (hnone []) h

/-- A command that is found replaces whatever was there. -/
theorem query_found {queryString cmd : CString}
    (h : queryParseKeyValue 20 queryString (bytes "cmd") [] = some (0, cmd)) (value : CString) :
    queryParseKeyValue 20 queryString (bytes "cmd") value = some (0, cmd) := by
  rcases queryParseKeyValue_cases 20 queryString (bytes "cmd") with hkeep | ⟨text, htext⟩ | hnone
  · simp [hkeep] at h
  · obtain rfl : text = cmd := by simpa [htext] using h
    exact htext value
  · simp [hnone] at h

theorem turn_text {root : Option Json} (hread : r.read = .text root) {ret : Int} {cmd : CString}
    (h : queryParseKeyValue 20 r.queryString (bytes "cmd") memory.cmd = some (ret, cmd)) :
    program.turn env r memory =
      (program env cmd root memory.arrays).map fun left => (⟨cmd, left.1⟩, left.2) := by
  cases hbody : program env cmd root memory.arrays with
  | none => simp [Program.turn, h, hread, hbody]
  | some left => simp [Program.turn, h, hread, hbody]

theorem Independent.agree (h : Independent program env r) (hm : Reachable program memory)
    (hm' : Reachable program memory') :
    ∃ left left' handler handler', program.turn env r memory = some (left, handler) ∧
      program.turn env r memory' = some (left', handler') ∧ Alike handler handler' := by
  obtain ⟨history, hhistory⟩ := hm
  obtain ⟨history', hhistory'⟩ := hm'
  exact h blank history history' memory memory' hhistory hhistory'

theorem Independent.defined (h : Independent program env r) :
    program.turn env r blank ≠ none := by
  obtain ⟨left, -, handler, -, hturn, -⟩ := h blank [] [] blank blank rfl rfl
  rw [hturn]
  exact Option.some_ne_none _

theorem agree_iff {root : Option Json} (hread : r.read = .text root) {ret ret' : Int}
    {cmd cmd' : CString}
    (h : queryParseKeyValue 20 r.queryString (bytes "cmd") memory.cmd = some (ret, cmd))
    (h' : queryParseKeyValue 20 r.queryString (bytes "cmd") memory'.cmd = some (ret', cmd')) :
    (∃ left left' handler handler', program.turn env r memory = some (left, handler) ∧
      program.turn env r memory' = some (left', handler') ∧ Alike handler handler') ↔
    Agree program env root cmd cmd' memory.arrays memory'.arrays := by
  rw [turn_text hread h, turn_text hread h', Agree]
  simp only [Option.map_eq_some_iff, Prod.mk.injEq, Prod.exists]
  constructor
  · rintro ⟨_, _, _, _, ⟨left, handler, hbody, -, rfl⟩, ⟨left', handler', hbody', -, rfl⟩, halike⟩
    exact ⟨left, left', handler, handler', hbody, hbody', halike⟩
  · rintro ⟨left, left', handler, handler', hbody, hbody', halike⟩
    exact ⟨_, _, handler, handler', ⟨left, handler, hbody, rfl, rfl⟩,
      ⟨left', handler', hbody', rfl, rfl⟩, halike⟩

theorem Needs.iff_independentOk (h : Needs program env needs) (r : HttpRequest) :
    Independent program env r ↔ independentOk needs r := by
  have hquery_undefined
      (hnone : queryParseKeyValue 20 r.queryString (bytes "cmd") [] = none) :
      program.turn env r blank = none := by simp [Program.turn, blank, hnone]
  constructor
  · intro hind
    rw [independentOk]
    cases hread : r.read with
    | noData => exact fun hnone => hind.defined (hquery_undefined hnone)
    | unread => exact fun hnone => hind.defined (hquery_undefined hnone)
    | undefined =>
      refine hind.defined ?_
      cases hquery : queryParseKeyValue 20 r.queryString (bytes "cmd") [] with
      | none => exact hquery_undefined hquery
      | some result => simp [Program.turn, blank, hquery, hread]
    | text root =>
      rcases queryParseKeyValue_cases 20 r.queryString (bytes "cmd") with
        hkeep | ⟨cmd, hcmd⟩ | hnone
      · obtain ⟨memory, memory', hm, hm', hne⟩ := h.command root
        exact absurd ((agree_iff hread (hkeep _) (hkeep _)).mp (hind.agree hm hm')) hne
      · refine ⟨cmd, hcmd [], ?_⟩
        by_contra hneeds
        obtain ⟨memory, memory', hm, hm', hne⟩ := h.body hneeds
        exact hne ((agree_iff hread (hcmd _) (hcmd _)).mp (hind.agree hm hm'))
      · exact absurd (hquery_undefined (hnone [])) hind.defined
  · intro hok start history history' memory memory' _ _
    rw [independentOk] at hok
    cases hread : r.read with
    | noData =>
      rw [hread] at hok
      obtain ⟨ret, cmd, hquery⟩ := query_defined hok memory.cmd
      obtain ⟨ret', cmd', hquery'⟩ := query_defined hok memory'.cmd
      exact ⟨⟨cmd, memory.arrays⟩, ⟨cmd', memory'.arrays⟩, .done (some .noData), _,
        by simp [Program.turn, hquery, hread], by simp [Program.turn, hquery', hread], Alike.refl _⟩
    | unread =>
      rw [hread] at hok
      obtain ⟨ret, cmd, hquery⟩ := query_defined hok memory.cmd
      obtain ⟨ret', cmd', hquery'⟩ := query_defined hok memory'.cmd
      exact ⟨⟨cmd, memory.arrays⟩, ⟨cmd', memory'.arrays⟩, .done (some .nothing), _,
        by simp [Program.turn, hquery, hread], by simp [Program.turn, hquery', hread], Alike.refl _⟩
    | undefined =>
      rw [hread] at hok
      exact hok.elim
    | text root =>
      rw [hread] at hok
      obtain ⟨cmd, hcmd, hneeds⟩ := hok
      exact (agree_iff hread (query_found hcmd _) (query_found hcmd _)).mpr (h.enough hneeds _ _)

end

/-! ## Two memories that differ in one array -/

/-- A body with all members of all programs. -/
def fullMembers (texts : Arrays) : List (CString × Datum) :=
  [(bytes "user", .string (texts .user)), (bytes "token", .string (texts .token)),
    (bytes "md5", .string (texts .md5)), (bytes "filename", .string (texts .filename))]

/-- The texts can be sent in one body. -/
def Arrays.Sendable (texts : Arrays) : Prop :=
  (∀ field ∈ [Field.user, .token, .md5, .filename], 0 ∉ texts field) ∧
    (printedRequest [] (fullMembers texts)).stdin.length + 8 ≤ 4096

instance (texts : Arrays) : Decidable texts.Sendable := inferInstanceAs (Decidable (_ ∧ _))

theorem decode_fullMembers {texts : Arrays} {fields : List Field} (h : texts.Fits fields)
    (arrays : Arrays) :
    decode fields (some (objectJson (fullMembers texts))) arrays =
      some (0, arrays.write fields texts) := by
  refine decode_objectJson (fun field hfield => ⟨?_, h field hfield⟩) arrays
  cases field <;> rfl

/-- The request with this body leaves its command and its texts behind. -/
theorem reachable_of_fullMembers {program : Program} (env : Environment) {texts : Arrays}
    (htexts : texts.Sendable) {cmd : CString} {arrays : Arrays} {handler : Handler (Option Response)}
    (hcmd : queryParseKeyValue 20 (bytes "cmd=" ++ cmd) (bytes "cmd") [] = some (0, cmd))
    (hbody : program env cmd (some (objectJson (fullMembers texts))) (fun _ => []) =
      some (arrays, handler)) :
    Reachable program ⟨cmd, arrays⟩ := by
  obtain ⟨hzero, hlength⟩ := htexts
  simp only [List.forall_mem_cons] at hzero
  have hcarries : (printedRequest (bytes "cmd=" ++ cmd) (fullMembers texts)).Carries
      (.object (fullMembers texts)) :=
    carries_printedRequest ⟨by decide, hzero.1, by decide, hzero.2.1, by decide, hzero.2.2.1,
      by decide, hzero.2.2.2.1, trivial⟩ hlength
  refine ⟨[(env, printedRequest (bytes "cmd=" ++ cmd) (fullMembers texts))], ?_⟩
  have hturn : program.turn env (printedRequest (bytes "cmd=" ++ cmd) (fullMembers texts)) blank =
      some (⟨cmd, arrays⟩, handler) :=
    (turn_text hcarries.read hcmd).trans (congrArg _ hbody)
  rw [Program.after, hturn]
  rfl

def only (field : Field) (text : CString) : Arrays := Function.update (fun _ => []) field text

/-- The only token Redis knows. -/
def Store.login (user token : CString) : Store :=
  { Store.empty with redis := Function.update Redis.empty user (some (.string token)) }

theorem token_login (user token : CString) : (Store.login user token).redis.token user = some token := by
  simp [Store.login, Redis.token]

theorem respond_login {user token : CString} (h : token.length < 128)
    (command : Handler (Option Response)) :
    respond (guardToken user token command) (Store.login user token) =
      respond command (Store.login user token) := by
  simp [respond_guardToken, token_login, h.not_ge]

theorem respond_login_other {user token other : CString} (h : token.length < 128)
    (hother : other ≠ token) (command : Handler (Option Response)) :
    respond (guardToken user other command) (Store.login user token) =
      some (.status (bytes "111"), Store.login user token) := by
  simp [respond_guardToken, token_login, h.not_ge, hother]

theorem reachable_blank (program : Program) : Reachable program blank := ⟨[], rfl⟩

section

variable {program : Program} {env : Environment} {root : Option Json} {cmd : Memory → CString}

theorem leaks_of_undefined (h : program env (cmd blank) root (fun _ => []) = none) :
    Leaks program env root cmd := by
  refine ⟨blank, blank, reachable_blank _, reachable_blank _, ?_⟩
  rintro ⟨left, -, handler, -, hbody, -⟩
  cases h.symm.trans hbody

/-- Some store tells the two memories apart. -/
theorem leaks_of_ne {s : Store} {memory memory' : Memory}
    (hm : Reachable program memory) (hm' : Reachable program memory')
    (hne : program.outcome env (cmd memory) root memory.arrays s ≠
      program.outcome env (cmd memory') root memory'.arrays s) : Leaks program env root cmd := by
  refine ⟨memory, memory', hm, hm', ?_⟩
  rintro ⟨left, left', handler, handler', hbody, hbody', halike⟩
  refine hne ?_
  simp only [Program.outcome, hbody, hbody', Option.bind_eq_bind, Option.bind_some, respond,
    halike Store store s]

end

theorem fits_only {field : Field} {text : CString} (h : text.length < 128) (fields : List Field) :
    (only field text).Fits fields := by
  intro other _
  by_cases hother : other = field
  · subst hother
    have hsize : 128 ≤ other.size := by cases other <;> decide
    simpa [only] using h.trans_le hsize
  · cases other <;> simp [only, hother, Field.size]

theorem length_of_decode {fields : List Field} (hfields : fields ≠ []) {root : Option Json}
    {ret : Int} {arrays : Arrays} (h : decode fields root (fun _ => []) = some (ret, arrays))
    (field : Field) : (arrays field).length < field.size := by
  have hwrite : ∀ (copied : List Field) (texts : Arrays), texts.Fits copied →
      (Arrays.write (fun _ => []) copied texts field).length < field.size := by
    intro copied texts hfits
    by_cases hmem : field ∈ copied
    · simpa [Arrays.write, hmem] using hfits field hmem
    · cases field <;> simp [Arrays.write, hmem, Field.size]
  rcases decode_cases hfields root with
    hnone | ⟨texts, hfits, hall⟩ | ⟨copied, rest, texts, -, -, hfits, hstop⟩
  · simp [hnone] at h
  · obtain ⟨-, rfl⟩ : 0 = ret ∧ _ = arrays := by simpa [hall] using h
    exact hwrite fields texts hfits
  · obtain ⟨-, rfl⟩ : -1 = ret ∧ _ = arrays := by simpa [hstop] using h
    exact hwrite copied texts hfits

/-! ## `dealfile` -/

namespace DealFile

theorem outcome_eq (env : Environment) (cmd : CString) {root : Option Json}
    {arrays arrays' : Arrays} {ret : Int} (h : decode fields root arrays = some (ret, arrays'))
    (s : Store) :
    dealfile.outcome env cmd root arrays s = respond (request env cmd arrays') s := by
  simp [Program.outcome, dealfile, getJsonInfo, h]

theorem undefined_of_decode {env : Environment} {cmd : CString} {root : Option Json}
    {arrays : Arrays} (h : decode fields root arrays = none) : dealfile env cmd root arrays = none := by
  simp [dealfile, getJsonInfo, h]

/-- Every answer to a verified request tells it from a refused one. -/
theorem command_ne_refused (env : Environment) (cmd user md5 filename : CString) (s : Store) :
    ((command env cmd user md5 filename).run store s).1 ≠ .status (bytes "111") := by
  have hshare : ∀ ret, shareStatus ret ≠ .status (bytes "111") := by
    intro ret
    rw [shareStatus]
    split_ifs <;> decide
  have hdel : ∀ ret, delStatus ret ≠ .status (bytes "111") := by
    intro ret
    rw [delStatus]
    split_ifs <;> decide
  have hpv : ∀ ret, pvStatus ret ≠ .status (bytes "111") := by
    intro ret
    rw [pvStatus]
    split_ifs <;> decide
  rw [command]
  split_ifs <;> simp only [pure_eq, run_bind, run_done]
  · exact hshare _
  · exact hdel _
  · exact hpv _
  · decide

theorem command_pv_ne_nothing (env : Environment) (user md5 filename : CString) (s : Store) :
    ((command env (bytes "pv") user md5 filename).run store s).1 ≠ .nothing := by
  rw [command, if_neg (by decide), if_neg (by decide), if_pos rfl]
  simp [run_bind, pvStatus]

theorem reachable (env : Environment) (cmd : CString) {texts : Arrays}
    (hcmd : queryParseKeyValue 20 (bytes "cmd=" ++ cmd) (bytes "cmd") [] = some (0, cmd))
    (hsend : texts.Sendable) (htexts : texts.Fits fields) : Reachable dealfile ⟨cmd, texts⟩ := by
  have hwrite : Arrays.write (fun _ => []) fields texts = texts := by
    funext field
    cases field <;> rfl
  have hbody : dealfile env cmd (some (objectJson (fullMembers texts))) (fun _ => []) =
      some (texts, request env cmd texts) := by
    simp [dealfile, getJsonInfo, decode_fullMembers htexts, hwrite]
  exact reachable_of_fullMembers env hsend hcmd hbody

theorem leaks_body (env : Environment) (cmd : CString) {root : Option Json}
    (h : ¬ Complete fields root) : Leaks dealfile env root fun _ => cmd := by
  rcases stopped_of_not_complete [.user, .md5, .filename] (by decide) h with
    hnone | ⟨copied, texts, hcopied, -, hstop⟩
  · exact leaks_of_undefined (undefined_of_decode (hnone _))
  · -- both arrays name the same user, and only one of them the token of that user
    let user := (only .token (bytes "a")).write copied texts .user
    have htoken : ∀ token, (only .token token).write copied texts .token = token := by
      intro token
      simp [Arrays.write, hcopied, only]
    have hrun := outcome_eq env cmd (hstop (only .token (bytes "a")))
      (Store.login user (bytes "a"))
    have hrun' := outcome_eq env cmd (hstop (only .token (bytes "b")))
      (Store.login user (bytes "a"))
    rw [request, htoken, respond_login (by decide), respond_some] at hrun
    rw [request, htoken] at hrun'
    have hrefused := hrun'.trans (respond_login_other (by decide) (by decide) _)
    refine leaks_of_ne
      (reachable env (bytes "pv") (by decide) (by decide) (fits_only (by decide) _))
      (reachable env (bytes "pv") (by decide) (by decide) (fits_only (by decide) _))
      (hrun.trans_ne (Ne.trans_eq ?_ hrefused.symm))
    exact fun heq => command_ne_refused _ _ _ _ _ _ (congrArg Prod.fst (Option.some.inj heq))

theorem leaks_command (env : Environment) (root : Option Json) :
    Leaks dealfile env root Memory.cmd := by
  cases hdecode : decode fields root (fun _ => []) with
  | none => exact leaks_of_undefined (undefined_of_decode hdecode)
  | some decoded =>
    obtain ⟨ret, arrays⟩ := decoded
    have hlength : (arrays .token).length < 128 := length_of_decode (by decide) hdecode .token
    have hrun : ∀ cmd, dealfile.outcome env cmd root (fun _ => [])
        (Store.login (arrays .user) (arrays .token)) =
        some ((command env cmd (arrays .user) (arrays .md5) (arrays .filename)).run store
          (Store.login (arrays .user) (arrays .token))) := by
      intro cmd
      rw [outcome_eq env cmd hdecode, request, respond_login hlength, respond_some]
    have hreach : Reachable dealfile ⟨bytes "pv", fun _ => []⟩ :=
      reachable env (bytes "pv") (by decide) (by decide)
        (by simp [Arrays.Fits, fields, Field.size])
    refine leaks_of_ne hreach (reachable_blank _)
      ((hrun (bytes "pv")).trans_ne (Ne.trans_eq ?_ (hrun []).symm))
    exact fun heq => command_pv_ne_nothing _ _ _ _ _ (congrArg Prod.fst (Option.some.inj heq))

theorem needs (env : Environment) : Needs dealfile env fun _ root => Complete fields root where
  enough {cmd root} h arrays arrays' := by
    obtain ⟨texts, -, htexts⟩ := h.texts (by decide)
    have hbody : ∀ arrays, dealfile env cmd root arrays =
        some (arrays.write fields texts, request env cmd (Arrays.write arrays fields texts)) :=
      fun arrays => by simp [dealfile, getJsonInfo, htexts]
    exact ⟨_, _, _, _, hbody arrays, hbody arrays', Alike.refl _⟩
  body h := leaks_body env _ h
  command root := leaks_command env root

end DealFile

/-! ## `dealsharefile` -/

namespace DealShareFile

section

variable (env : Environment) (cmd : CString) {root : Option Json} {arrays arrays' : Arrays} {ret : Int}

theorem outcome_eq (h : decode fields root arrays = some (ret, arrays')) (s : Store) :
    dealsharefile.outcome env cmd root arrays s =
      some ((command env cmd (arrays' .user) (arrays' .md5) (arrays' .filename)).run store s) := by
  simp [Program.outcome, dealsharefile, getJsonInfo, h, respond_dealsharefile]

theorem undefined_of_decode (h : decode fields root arrays = none) :
    dealsharefile env cmd root arrays = none := by
  simp [dealsharefile, getJsonInfo, h]

end

def commands : List CString := [bytes "pv", bytes "cancel", bytes "save"]

/-- A command the program does not know needs a body that can be decoded at all. -/
def needed (cmd : CString) (root : Option Json) : Prop :=
  decode fields root (fun _ => []) ≠ none ∧ (cmd ∈ commands → Complete fields root)

theorem command_unknown (env : Environment) {cmd : CString} (h : cmd ∉ commands)
    (user md5 filename : CString) : command env cmd user md5 filename = return .nothing := by
  simp only [commands, List.mem_cons, List.not_mem_nil, or_false, not_or] at h
  rw [command, if_neg h.1, if_neg h.2.1, if_neg h.2.2]

theorem reachable (env : Environment) (cmd : CString) {text : CString} (htext : text.length < 128)
    (hsend : (only .filename text).Sendable)
    (hcmd : queryParseKeyValue 20 (bytes "cmd=" ++ cmd) (bytes "cmd") [] = some (0, cmd)) :
    Reachable dealsharefile ⟨cmd, only .filename text⟩ := by
  have hwrite : Arrays.write (fun _ => []) fields (only .filename text) = only .filename text := by
    funext field
    cases field <;> rfl
  have hbody : dealsharefile env cmd (some (objectJson (fullMembers (only .filename text))))
      (fun _ => []) = some (only .filename text, request env cmd (only .filename text)) := by
    simp [dealsharefile, getJsonInfo, decode_fullMembers (fits_only htext fields), hwrite]
  exact reachable_of_fullMembers env hsend hcmd hbody

/-- For every known command there is a store in which the file name matters. -/
theorem command_depends (env : Environment) {cmd : CString} (h : cmd ∈ commands)
    (user md5 : CString) : ∃ s : Store,
      (command env cmd user md5 (bytes "a")).run store s ≠
        (command env cmd user md5 (bytes "b")).run store s := by
  simp only [commands, List.mem_cons, List.not_mem_nil, or_false] at h
  have hab : bytes "a" ≠ bytes "b" := by decide
  rcases h with rfl | rfl | rfl
  · let t : Tables := { Tables.empty with shareFileList := [⟨[], md5, [], bytes "a", 0⟩] }
    refine ⟨{ Store.empty with tables := t }, fun heq => ?_⟩
    have hstore := congrArg (fun r => r.2.tables.shareFileList) heq
    simp [command, run_bind, run_pvShareFile, t, ShareFile.isFile, hab, Tables.setSharePv] at hstore
  · let t : Tables := { Tables.empty with
      shareFileList := [⟨user, md5, [], bytes "a", 0⟩]
      userFileCount := fun _ => some 2 }
    refine ⟨{ Store.empty with tables := t }, fun heq => ?_⟩
    have hstore := congrArg (fun r => r.2.tables.shareFileList) heq
    rw [command, if_neg (by decide), if_pos rfl, command, if_neg (by decide), if_pos rfl] at hstore
    simp [run_bind, run_cancelShareFile, t, ShareFile.is, hab, Tables.cancel, Tables.unshare,
      Tables.setStatus] at hstore
  · let t : Tables := { Tables.empty with userFileList := [⟨user, md5, [], bytes "a", 0, 0⟩] }
    refine ⟨{ Store.empty with tables := t }, fun heq => ?_⟩
    have hresponse := congrArg Prod.fst heq
    rw [command, if_neg (by decide), if_neg (by decide), if_pos rfl, command,
      if_neg (by decide), if_neg (by decide), if_pos rfl] at hresponse
    simp only [run_bind, run_saveFile, t, Tables.holds, UserFile.is, Tables.empty, pure_eq, run_done] at hresponse
    simp [hab] at hresponse
    revert hresponse
    decide

theorem leaks_body (env : Environment) {cmd : CString} {root : Option Json}
    (h : ¬ needed cmd root) : Leaks dealsharefile env root fun _ => cmd := by
  cases hdecode : decode fields root (fun _ => []) with
  | none => exact leaks_of_undefined (undefined_of_decode env cmd hdecode)
  | some decoded =>
    obtain ⟨hcmd, hcomplete⟩ : cmd ∈ commands ∧ ¬ Complete fields root := by
      simpa [needed, hdecode] using h
    rcases stopped_of_not_complete [.user, .md5] (by decide) hcomplete with
      hnone | ⟨copied, texts, hcopied, -, hstop⟩
    · exact leaks_of_undefined (undefined_of_decode env cmd (hnone _))
    · have hname : ∀ name, (only .filename name).write copied texts .filename = name := by
        intro name
        simp [Arrays.write, hcopied, only]
      obtain ⟨s, hne⟩ := command_depends env hcmd
        ((only .filename (bytes "a")).write copied texts .user)
        ((only .filename (bytes "a")).write copied texts .md5)
      have hrun := outcome_eq env cmd (hstop (only .filename (bytes "a"))) s
      have hrun' := outcome_eq env cmd (hstop (only .filename (bytes "b"))) s
      rw [hname] at hrun hrun'
      refine leaks_of_ne (reachable env (bytes "pv") (by decide) (by decide) (by decide))
        (reachable env (bytes "pv") (by decide) (by decide) (by decide))
        (hrun.trans_ne (Ne.trans_eq ?_ hrun'.symm))
      exact fun heq => hne (Option.some.inj heq)

theorem leaks_command (env : Environment) (root : Option Json) :
    Leaks dealsharefile env root Memory.cmd := by
  cases hdecode : decode fields root (fun _ => []) with
  | none => exact leaks_of_undefined (undefined_of_decode env [] hdecode)
  | some decoded =>
    have hblank : only .filename [] = fun _ => [] := by
      funext field
      cases field <;> rfl
    have hreach : Reachable dealsharefile ⟨bytes "pv", fun _ => []⟩ := by
      rw [← hblank]
      exact reachable env (bytes "pv") (by decide) (by decide) (by decide)
    refine leaks_of_ne hreach (reachable_blank _) ((outcome_eq env (bytes "pv") hdecode
      Store.empty).trans_ne (Ne.trans_eq ?_ (outcome_eq env [] hdecode _).symm))
    rw [command_unknown env (by decide : [] ∉ commands), command, if_pos rfl]
    intro heq
    have hresponse := congrArg Prod.fst (Option.some.inj heq)
    simp [run_bind, pvStatus] at hresponse

theorem needs (env : Environment) : Needs dealsharefile env needed where
  enough {cmd root} h arrays arrays' := by
    rcases Decidable.em (cmd ∈ commands) with hcmd | hcmd
    · obtain ⟨texts, -, htexts⟩ := (h.2 hcmd).texts (by decide)
      have hbody : ∀ arrays, dealsharefile env cmd root arrays =
          some (arrays.write fields texts, request env cmd (Arrays.write arrays fields texts)) :=
        fun arrays => by simp [dealsharefile, getJsonInfo, htexts]
      exact ⟨_, _, _, _, hbody arrays, hbody arrays', Alike.refl _⟩
    · have hbody : ∀ arrays, ∃ left,
          dealsharefile env cmd root arrays = some (left, return some .nothing) := by
        intro arrays
        obtain ⟨⟨ret, left⟩, hdecode⟩ := decode_ne_none (by decide) h.1 arrays
        exact ⟨left, by simp [dealsharefile, getJsonInfo, hdecode, request, command_unknown env hcmd]⟩
      obtain ⟨left, hleft⟩ := hbody arrays
      obtain ⟨left', hleft'⟩ := hbody arrays'
      exact ⟨left, left', _, _, hleft, hleft', Alike.refl _⟩
  body h := leaks_body env h
  command root := leaks_command env root

end DealShareFile

/-! ## `myfiles` -/

namespace MyFiles

/-- A list needs the two positions as well. -/
def needed (cmd : CString) (root : Option Json) : Prop :=
  Complete fields root ∧ (cmd ≠ bytes "count" →
    root.bind (·.getObjectItem (bytes "start")) ≠ none ∧
    root.bind (·.getObjectItem (bytes "count")) ≠ none)

section

variable (env : Environment) {cmd : CString} {root : Option Json} {arrays arrays' : Arrays} {ret : Int}

theorem outcome_count (h : decode fields root arrays = some (ret, arrays')) (s : Store) :
    myfiles.outcome env (bytes "count") root arrays s = respond (countRequest arrays') s := by
  simp [Program.outcome, myfiles, getCountJsonInfo, h]

theorem count_undefined (h : decode fields root arrays = none) :
    myfiles env (bytes "count") root arrays = none := by
  simp [myfiles, getCountJsonInfo, h]

theorem list_eq (hcmd : cmd ≠ bytes "count") {start count : JsonItem}
    (h : decode fields root arrays = some (0, arrays'))
    (hstart : root.bind (·.getObjectItem (bytes "start")) = some start)
    (hcount : root.bind (·.getObjectItem (bytes "count")) = some count) :
    myfiles env cmd root arrays =
      some (arrays', listRequest cmd start.valueint count.valueint arrays') := by
  simp [myfiles, getFileslistJsonInfo, hcmd, h, hstart, hcount]

theorem outcome_list (hcmd : cmd ≠ bytes "count") {start count : JsonItem}
    (h : decode fields root arrays = some (0, arrays'))
    (hstart : root.bind (·.getObjectItem (bytes "start")) = some start)
    (hcount : root.bind (·.getObjectItem (bytes "count")) = some count) (s : Store) :
    myfiles.outcome env cmd root arrays s =
      respond (listRequest cmd start.valueint count.valueint arrays') s := by
  rw [Program.outcome, list_eq env hcmd h hstart hcount]
  rfl

/-- The positions are read before they are set. -/
theorem list_undefined (hcmd : cmd ≠ bytes "count") (h : ¬ needed cmd root) :
    myfiles env cmd root (fun _ => []) = none := by
  rcases decode_cases (by decide : fields ≠ []) root with
    hnone | ⟨texts, -, hall⟩ | ⟨copied, rest, texts, -, -, -, hstop⟩
  · simp [myfiles, getFileslistJsonInfo, hcmd, hnone]
  · have hcomplete : Complete fields root := ⟨_, hall _⟩
    cases hstart : root.bind (·.getObjectItem (bytes "start")) with
    | none => simp [myfiles, getFileslistJsonInfo, hcmd, hall, hstart]
    | some start =>
      cases hcount : root.bind (·.getObjectItem (bytes "count")) with
      | none => simp [myfiles, getFileslistJsonInfo, hcmd, hall, hstart, hcount]
      | some count => exact absurd ⟨hcomplete, fun _ => by simp [hstart, hcount]⟩ h
  · simp [myfiles, getFileslistJsonInfo, hcmd, hstop]

end

theorem reachable (env : Environment) {text : CString} (htext : text.length < 128)
    (hsend : (only .token text).Sendable) : Reachable myfiles ⟨bytes "count", only .token text⟩ := by
  have hwrite : Arrays.write (fun _ => []) fields (only .token text) = only .token text := by
    funext field
    cases field <;> rfl
  have hbody : myfiles env (bytes "count") (some (objectJson (fullMembers (only .token text))))
      (fun _ => []) = some (only .token text, countRequest (only .token text)) := by
    simp [myfiles, getCountJsonInfo, decode_fullMembers (fits_only htext fields), hwrite]
  exact reachable_of_fullMembers env hsend (by decide) hbody

theorem leaks_count (env : Environment) {root : Option Json} (h : ¬ Complete fields root) :
    Leaks myfiles env root fun _ => bytes "count" := by
  rcases stopped_of_not_complete [.user] (by decide) h with
    hnone | ⟨copied, texts, hcopied, -, hstop⟩
  · exact leaks_of_undefined (count_undefined env (hnone _))
  · let user := (only .token (bytes "a")).write copied texts .user
    have htoken : ∀ token, (only .token token).write copied texts .token = token := by
      intro token
      simp [Arrays.write, hcopied, only]
    have hrun : ∀ token, myfiles.outcome env (bytes "count") root (only .token token)
        (Store.login user (bytes "a")) =
        some (.count 0 (if token = bytes "a" then bytes "110" else bytes "111"),
          Store.login user (bytes "a")) := by
      intro token
      have hlogin : (Store.login user (bytes "a")).redis.token
          ((only .token token).write copied texts .user) = some (bytes "a") := token_login _ _
      rw [outcome_count env (hstop _), respond_countRequest, hlogin, htoken]
      refine (if_neg (by decide)).trans ?_
      rw [run_getUserFilesCount]
      by_cases heq : token = bytes "a"
      · rw [if_pos heq, if_pos rfl, if_pos heq]
        rfl
      · rw [if_neg heq, if_neg (by decide), if_neg heq]
        rfl
    have hcodes : Response.count 0 (bytes "110") ≠ .count 0 (bytes "111") := by decide
    refine leaks_of_ne (reachable env (by decide) (by decide))
      (reachable env (by decide) (by decide))
      ((hrun (bytes "a")).trans_ne (Ne.trans_eq ?_ (hrun (bytes "b")).symm))
    exact fun heq => hcodes (congrArg Prod.fst (Option.some.inj heq))

theorem leaks_command (env : Environment) (root : Option Json) :
    Leaks myfiles env root Memory.cmd := by
  rcases Classical.em (needed [] root) with hneeded | hneeded
  · obtain ⟨texts, -, hall⟩ := hneeded.1.texts (by decide)
    obtain ⟨hstart, hcount⟩ := hneeded.2 (by decide)
    obtain ⟨start, hstart⟩ := Option.ne_none_iff_exists'.mp hstart
    obtain ⟨count, hcount⟩ := Option.ne_none_iff_exists'.mp hcount
    have hrun := outcome_count env (hall (only .token [])) Store.empty
    have hrun' := outcome_list env (by decide : [] ≠ bytes "count") (hall fun _ => []) hstart hcount
      Store.empty
    rw [respond_countRequest] at hrun
    rw [listRequest, respond_guardToken] at hrun'
    refine leaks_of_ne (reachable env (by decide) (by decide)) (reachable_blank _)
      (hrun.trans_ne (Ne.trans_eq ?_ hrun'.symm))
    rw [run_getUserFilesCount]
    simp [Store.empty, Redis.empty, Redis.token]
  · exact leaks_of_undefined (list_undefined env (by decide) hneeded)

theorem needs (env : Environment) : Needs myfiles env needed where
  enough {cmd root} h arrays arrays' := by
    obtain ⟨texts, -, hall⟩ := h.1.texts (by decide)
    rcases eq_or_ne cmd (bytes "count") with rfl | hcmd
    · have hbody : ∀ arrays, myfiles env (bytes "count") root arrays =
          some (arrays.write fields texts, countRequest (Arrays.write arrays fields texts)) :=
        fun arrays => by simp [myfiles, getCountJsonInfo, hall]
      exact ⟨_, _, _, _, hbody arrays, hbody arrays', Alike.refl _⟩
    · obtain ⟨hstart, hcount⟩ := h.2 hcmd
      obtain ⟨start, hstart⟩ := Option.ne_none_iff_exists'.mp hstart
      obtain ⟨count, hcount⟩ := Option.ne_none_iff_exists'.mp hcount
      exact ⟨_, _, _, _, list_eq env hcmd (hall arrays) hstart hcount,
        list_eq env hcmd (hall arrays') hstart hcount, Alike.refl _⟩
  body {cmd root} h := by
    rcases eq_or_ne cmd (bytes "count") with rfl | hcmd
    · exact leaks_count env (by simpa [needed] using h)
    · exact leaks_of_undefined (list_undefined env hcmd h)
  command root := leaks_command env root

end MyFiles

theorem independent_iff (env : Environment) (r : HttpRequest) :
    (Independent dealfile env r ↔ independentOk (fun _ root => Complete DealFile.fields root) r) ∧
    (Independent dealsharefile env r ↔ independentOk DealShareFile.needed r) ∧
    (Independent myfiles env r ↔ independentOk MyFiles.needed r) :=
  ⟨(DealFile.needs env).iff_independentOk r, (DealShareFile.needs env).iff_independentOk r,
    (MyFiles.needs env).iff_independentOk r⟩

def lastServed : Arrays
  | .user => bytes "u"
  | .token => bytes "t"
  | .md5 => bytes "m"
  | .filename => bytes "f"

/-- A body that is no JSON at all is served for whoever was served before. -/
theorem not_independent_malformed_body :
    ¬ Independent dealfile ⟨[], .ziplist⟩ (malformed (bytes "cmd=pv")) := by
  intro h
  -- the process is new, or it has served the user `u`, who is logged in
  have hserved : Reachable dealfile ⟨bytes "pv", lastServed⟩ :=
    DealFile.reachable ⟨[], .ziplist⟩ _ (by decide) (by decide)
      (by simp [Arrays.Fits, DealFile.fields, lastServed, Field.size, bytes_eq])
  have hcmd := query_found (by decide : queryParseKeyValue 20
    (malformed (bytes "cmd=pv")).queryString (bytes "cmd") [] = some (0, bytes "pv"))
  obtain ⟨left, left', handler, handler', hnew, hstale, halike⟩ :=
    (agree_iff (read_malformed _) (hcmd _) (hcmd _)).mp (h.agree (reachable_blank dealfile) hserved)
  cases hnew
  cases hstale
  have hanswer := congrArg Prod.fst (halike Store store (Store.login (bytes "u") (bytes "t")))
  revert hanswer
  decide

end HfDfs
