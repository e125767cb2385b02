import HfDfs.Cgi.Token
import HfDfs.Properties.DesRoundTrip
import HfDfs.Properties.Base64RoundTrip
import HfDfs.Properties.Md5Streaming

/-!
# What a token looks like

Where an `unsigned long` has four bytes the steps of `set_token` fit
together: every array has room for what is written to it, and the token is
the digest of the base64 text in 32 hexadecimal digits. When `malloc` fails
inside `DesEnc`, nothing is encrypted and nobody is told: then all tokens
are the same. Where it has eight, the first store of `DesEnc` is one of
eight bytes into an `int`.
-/

namespace HfDfs

set_option autoImplicit false

open Execution Execution.Code Memory Chunks

/-! ### Hexadecimal digits -/

def hexDigits : CString := bytes "0123456789abcdef"

def hexText (digest : List UInt8) : CString := digest.flatMap hexPair

theorem hexChar_mem : ∀ n < 16, CJson.hexChar n ∈ hexDigits := by decide

theorem length_hexPair (c : UInt8) : (hexPair c).length = 2 := rfl

theorem mem_hexDigits_of_mem_hexPair {c d : UInt8} (h : d ∈ hexPair c) : d ∈ hexDigits := by
  have hlt := c.toNat_lt
  have hlow : c.toNat % 16 < 16 := Nat.mod_lt _ (by decide)
  have hhigh : c.toNat / 16 < 16 := by omega
  rw [hexPair, List.mem_cons, List.mem_singleton] at h
  rcases h with rfl | rfl
  · exact hexChar_mem _ hhigh
  · exact hexChar_mem _ hlow

theorem mem_hexDigits_of_mem_hexText {digest : List UInt8} {d : UInt8} (h : d ∈ hexText digest) :
    d ∈ hexDigits := by
  obtain ⟨c, -, hd⟩ := List.mem_flatMap.mp h
  exact mem_hexDigits_of_mem_hexPair hd

theorem length_hexText (digest : List UInt8) : (hexText digest).length = 2 * digest.length :=
  length_flatMap length_hexPair digest

theorem length_digest (message : List UInt8) : (Rfc1321.digest message).length = 16 := by
  simp [Rfc1321.digest, Rfc1321.Words.toList, Rfc1321.toBytes]

/-- The digest of nothing. -/
theorem hexText_digest_nil :
    hexText (Rfc1321.digest (Base64.text [])) = bytes "d41d8cd98f00b204e9800998ecf8427e" := by
  decide +kernel

/-! ### Arrays -/

theorem returns_strlen {s rest : List UInt8} (h : 0 ∉ s) {n : Nat} :
    (strlen (s ++ 0 :: rest) 0).Returns n ↔ n = s.length := by
  rw [strlen, returns_bind]
  simp [returns_string_drop h (Nat.zero_le _)]

/-- A string written to the start of an array. -/
theorem returns_sprintf {array : List UInt8} {text : CString} (h : text.length < array.length) :
    (writeAll array 0 (text ++ [0])).Returns (text ++ 0 :: array.drop (text.length + 1)) := by
  have hroom : 0 + (text ++ [0]).length ≤ array.length := by
    rw [List.length_append, List.length_singleton]
    omega
  rw [returns_writeAll_of_le hroom]
  simp

theorem returns_strcat {token str rest : List UInt8} (htoken : 0 ∉ token)
    (hroom : str.length ≤ rest.length) :
    (strcat (token ++ 0 :: rest) str).Returns (token ++ str ++ 0 :: rest.drop str.length) := by
  have hfits : token.length + (str ++ [0]).length ≤ (token ++ 0 :: rest).length := by
    simp only [List.length_append, List.length_cons, List.length_nil]
    omega
  rw [strcat, returns_bind]
  refine ⟨token.length, (returns_strlen htoken).mpr rfl, (returns_writeAll_of_le hfits).mpr ?_⟩
  simp [← List.drop_drop]

/-- Each turn of the loop appends two digits. -/
theorem returns_hexLoop {digest token rest : List UInt8} (htoken : 0 ∉ token)
    (hroom : 2 * digest.length ≤ rest.length) :
    (digest.foldlM (fun token c => strcat token (hexPair c)) (token ++ 0 :: rest)).Returns
      (token ++ hexText digest ++ 0 :: rest.drop (2 * digest.length)) := by
  induction digest generalizing token rest with
  | nil => simp [hexText]
  | cons c digest ih =>
    have hzero : 0 ∉ token ++ hexPair c := by
      rw [List.mem_append, not_or]
      exact ⟨htoken, fun h => absurd (mem_hexDigits_of_mem_hexPair h) (by decide)⟩
    rw [List.length_cons] at hroom
    have hpair : (hexPair c).length ≤ rest.length := by
      rw [length_hexPair]
      omega
    have hrest : 2 * digest.length ≤ (rest.drop (hexPair c).length).length := by
      rw [length_hexPair, List.length_drop]
      omega
    have hdone := ih hzero hrest
    rw [List.foldlM_cons, returns_bind]
    refine ⟨_, returns_strcat htoken hpair, ?_⟩
    rw [List.drop_drop, length_hexPair] at hdone
    simpa [hexText, length_hexPair, Nat.mul_succ, Nat.add_comm] using hdone

/-! ### The token -/

section Token

variable {user : CString} {randNum : List Int}

/-- What `set_token` encrypts. -/
def tokenSeed (user : CString) (randNum : List Int) : CString := user ++ randNum.flatMap decimal

theorem zero_notMem_tokenSeed (h : 0 ∉ user) : 0 ∉ tokenSeed user randNum := by
  rw [tokenSeed, List.mem_append, List.mem_flatMap, not_or]
  refine ⟨h, ?_⟩
  rintro ⟨n, -, hn⟩
  exact (mem_decimal hn).elim (by decide) (by decide)

theorem length_tokenSeed (hrand : ∀ n ∈ randNum, 0 ≤ n ∧ n < 1000) :
    (tokenSeed user randNum).length ≤ user.length + 20 * randNum.length := by
  rw [tokenSeed, List.length_append]
  refine Nat.add_le_add_left ?_ _
  induction randNum with
  | nil => exact Nat.zero_le _
  | cons n rest ih =>
    obtain ⟨⟨hmin, hmax⟩, hrest⟩ := List.forall_mem_cons.mp hrand
    have hn : (decimal n).length ≤ 20 :=
      length_decimal_le (by rw [longMin]; omega) (by rw [longMax]; omega)
    have := ih hrest
    rw [List.flatMap_cons, List.length_append, List.length_cons]
    omega

/-- What there is to digest; without memory nothing is encrypted. -/
def tokenCipher (malloc : Bool) (user : CString) (randNum : List Int) : CString :=
  if malloc then Des.ciphertext (tokenSeed user randNum) else []

/-- The digest of the ciphertext in base64, in hexadecimal digits. -/
def tokenOf (malloc : Bool) (user : CString) (randNum : List Int) : CString :=
  hexText (Rfc1321.digest (Base64.text (tokenCipher malloc user randNum)))

/-- `DesEnc` succeeds with or without memory. -/
theorem desEnc_tokenSeed (malloc : Bool) (locals : Des.Locals .four)
    (h : (tokenSeed user randNum).length < 2 ^ 31 - 24) :
    Des.desEnc malloc locals (tokenSeed user randNum) =
      .ok ((tokenCipher malloc user randNum).length, tokenCipher malloc user randNum) := by
  cases malloc with
  | false => exact Des.desEnc_no_memory locals _
  | true => exact Des.desEnc_four locals h

theorem length_tokenCipher (malloc : Bool) :
    (tokenCipher malloc user randNum).length ≤ (tokenSeed user randNum).length + 8 := by
  cases malloc with
  | false => exact Nat.zero_le _
  | true =>
    rw [tokenCipher, if_pos rfl, Des.length_ciphertext]
    omega

/-- The steps behind `DesEnc`, when the arrays have room. -/
theorem returns_digestText (md5 : Md5.Ctx) {base64 : List UInt8} (rest : List UInt8)
    (hlength : base64.length < 2 ^ 31) :
    ∃ md5' md5'', (Md5.md5Update (Md5.md5Init md5) (base64 ++ 0 :: rest)
      (UInt32.ofNat base64.length)).Returns md5' ∧
      (Md5.md5Final md5').Returns (Rfc1321.digest base64, md5'') := by
  have hcount : (UInt32.ofNat base64.length).toNat = base64.length := by
    rw [UInt32.toNat_ofNat']
    exact Nat.mod_eq_of_lt (by omega)
  have hinput : (UInt32.ofNat base64.length).toNat ≤ (base64 ++ 0 :: rest).length := by
    rw [hcount, List.length_append]
    exact Nat.le_add_right _ _
  obtain ⟨md5', hupdate, hrepresents⟩ := Md5.returns_md5Update _ _ (Md5.represents_init md5) hinput
    (by rw [hcount]; omega)
  rw [hcount, List.take_left, List.nil_append] at hrepresents
  obtain ⟨md5'', hfinal⟩ := Md5.returns_md5Final hrepresents
  exact ⟨md5', md5'', hupdate, hfinal⟩

/-! ### The stores through pointers to `int`s -/

theorem returns_storeLong_four {p : List UInt8} (hp : p.length = 4) (value : Nat) :
    ∃ q, q.length = 4 ∧ (Des.storeLong .four p value).Returns q := by
  have hlength : (Des.longBytes (BitVec.ofNat Des.Width.four.bits value)).length = 4 :=
    Des.length_longBytes _
  refine ⟨_, ?_, (returns_writeAll_of_le (by rw [hlength, hp])).mpr rfl⟩
  simp [hlength, hp]

theorem not_returns_storeLong_eight {p q : List UInt8} (hp : p.length = 4) (value : Nat) :
    ¬ (Des.storeLong .eight p value).Returns q := by
  intro h
  have hlength : (Des.longBytes (BitVec.ofNat Des.Width.eight.bits value)).length = 8 :=
    Des.length_longBytes _
  have hle := le_of_returns_writeAll h fun hnil => by
    rw [hnil] at hlength
    cases hlength
  omega

theorem returns_blockStores (blocks : List Nat) {p : List UInt8} (hp : p.length = 4) :
    ∃ q, (blocks.foldlM (fun p _ => Des.storeLong .four p 8) p).Returns q := by
  induction blocks generalizing p with
  | nil => exact ⟨p, returns_pure.mpr rfl⟩
  | cons block rest ih =>
    obtain ⟨q, hq, hstore⟩ := returns_storeLong_four hp 8
    obtain ⟨q', hrest⟩ := ih hq
    rw [List.foldlM_cons]
    exact ⟨q', returns_bind.mpr ⟨q, hstore, hrest⟩⟩

/-- In four bytes the stores stay inside the `int`s. -/
theorem returns_desEncStores_four {malloc : Bool} {locals : Des.Locals .four} {x out : CString}
    {n : Int} (h : Des.desEnc malloc locals x = .ok (n, out)) :
    (Des.desEncStores malloc locals x).Returns (.ok (n, out)) := by
  obtain ⟨p, -, hkey⟩ := returns_storeLong_four (List.length_replicate (n := 4) (a := 0))
    Des.desKeyBytes
  obtain ⟨q, hblocks⟩ := returns_blockStores (List.range (out.length / 8))
    (List.length_replicate (n := 4) (a := 0))
  rw [Des.desEncStores, returns_bind]
  refine ⟨p, hkey, ?_⟩
  rw [h]
  exact returns_bind.mpr ⟨q, hblocks, returns_pure.mpr rfl⟩

theorem not_returns_desEncStores_eight (malloc : Bool) (locals : Des.Locals .eight) (x : CString)
    (answer : Des.Answer) : ¬ (Des.desEncStores malloc locals x).Returns answer := by
  intro h
  obtain ⟨p, hkey, -⟩ := returns_bind.mp h
  exact not_returns_storeLong_eight List.length_replicate _ hkey

/-- Every array has room. -/
theorem returns_tokenText (malloc : Bool) (locals : Des.Locals .four) (md5 : Md5.Ctx)
    (hzero : 0 ∉ user) (huser : user.length < 512) (hfour : randNum.length = 4)
    (hrand : ∀ n ∈ randNum, 0 ≤ n ∧ n < 1000) :
    (tokenText malloc locals md5 user randNum).Returns (some (tokenOf malloc user randNum)) := by
  have hseed : (tokenSeed user randNum).length ≤ user.length + 20 * randNum.length :=
    length_tokenSeed hrand
  rw [hfour] at hseed
  have hshort : (tokenSeed user randNum).length < 2 ^ 31 - 24 := by omega
  have hout := desEnc_tokenSeed malloc locals hshort
  have hlength : (tokenCipher malloc user randNum).length ≤ (tokenSeed user randNum).length + 8 :=
    length_tokenCipher malloc
  rw [tokenOf]
  generalize tokenCipher malloc user randNum = out at hout hlength ⊢
  have hsize (n : Nat) : (List.replicate n (0 : UInt8)).length = n := List.length_replicate
  have htmp : (tokenSeed user randNum).length < (List.replicate 1024 (0 : UInt8)).length := by
    rw [hsize]
    omega
  have henc : 0 + out.length ≤ (List.replicate 2048 (0 : UInt8)).length := by
    rw [hsize]
    omega
  have htext := Base64.length_text out
  have hint : (Base64.text out).length < 2 ^ 31 := by omega
  have hbase64 : (Base64.text out).length < (List.replicate 3072 (0 : UInt8)).length := by
    rw [hsize]
    omega
  have harray : List.replicate 128 (0 : UInt8) = [] ++ 0 :: List.replicate 127 0 :=
    List.replicate_succ
  have hloop : 2 * (Rfc1321.digest (Base64.text out)).length ≤
      (List.replicate 127 (0 : UInt8)).length := by
    rw [length_digest, hsize]
    decide
  have htoken : 0 ∉ hexText (Rfc1321.digest (Base64.text out)) := fun h =>
    absurd (mem_hexDigits_of_mem_hexText h) (by decide)
  obtain ⟨md5', md5'', hupdate, hfinal⟩ := returns_digestText md5
    ((List.replicate 3072 0).drop ((Base64.text out).length + 1)) hint
  rw [tokenText, returns_bind]
  refine ⟨_, returns_sprintf htmp, ?_⟩
  rw [returns_bind]
  refine ⟨_, (returns_string_drop (zero_notMem_tokenSeed hzero) (Nat.zero_le _)).mpr rfl, ?_⟩
  rw [List.drop_zero, returns_bind]
  refine ⟨_, returns_desEncStores_four hout, ?_⟩
  dsimp only
  rw [returns_bind]
  refine ⟨_, (returns_writeAll_of_le henc).mpr rfl, ?_⟩
  rw [List.take_zero, List.nil_append, returns_bind]
  refine ⟨_, Base64.returns_base64Encode.mpr ⟨⟨hbase64, hint⟩, rfl⟩, ?_⟩
  rw [returns_bind]
  refine ⟨_, (returns_strlen (Base64.zero_notMem_text out)).mpr rfl, ?_⟩
  rw [returns_bind]
  refine ⟨_, hupdate, ?_⟩
  rw [returns_bind]
  refine ⟨_, hfinal, ?_⟩
  rw [harray, returns_bind]
  refine ⟨_, returns_hexLoop List.not_mem_nil hloop, ?_⟩
  rw [List.nil_append, returns_bind]
  refine ⟨_, (returns_string_drop htoken (Nat.zero_le _)).mpr rfl, ?_⟩
  rw [List.drop_zero, returns_pure]

theorem length_hexText_digest (message : List UInt8) :
    (hexText (Rfc1321.digest message)).length = 32 := by
  rw [length_hexText, length_digest]

/-- Where a `long` has eight bytes nothing is returned. -/
theorem not_returns_tokenText_eight (malloc : Bool) (locals : Des.Locals .eight) (md5 : Md5.Ctx)
    (token : Option CString) : ¬ (tokenText malloc locals md5 user randNum).Returns token := by
  intro h
  obtain ⟨_, _, h⟩ := returns_bind.mp h
  obtain ⟨text, _, h⟩ := returns_bind.mp h
  obtain ⟨answer, hstores, _⟩ := returns_bind.mp h
  exact not_returns_desEncStores_eight malloc locals text answer hstores

theorem length_tokenOf (malloc : Bool) : (tokenOf malloc user randNum).length = 32 :=
  length_hexText_digest _

theorem mem_hexDigits_of_mem_tokenOf {malloc : Bool} {c : UInt8}
    (h : c ∈ tokenOf malloc user randNum) : c ∈ hexDigits := mem_hexDigits_of_mem_hexText h

/-- With an `unsigned long` of four bytes no array overflows, whatever the locals hold, and the
token is the digest of the ciphertext in base64, in 32 hexadecimal digits; without memory it is
the same for everybody. With eight bytes the run is undefined, whoever logs in. -/
theorem tokenText_hex (malloc : Bool) (md5 : Md5.Ctx) (hzero : 0 ∉ user) (huser : user.length < 512)
    (hfour : randNum.length = 4) (hrand : ∀ n ∈ randNum, 0 ≤ n ∧ n < 1000) :
    (∀ locals : Des.Locals .four,
      (tokenText malloc locals md5 user randNum).Returns (some (tokenOf malloc user randNum))) ∧
    (tokenOf malloc user randNum).length = 32 ∧
    (∀ c ∈ tokenOf malloc user randNum, c ∈ hexDigits) ∧
    (malloc = false →
      tokenOf malloc user randNum = bytes "d41d8cd98f00b204e9800998ecf8427e") ∧
    ∀ (locals : Des.Locals .eight) (token : Option CString),
      ¬ (tokenText malloc locals md5 user randNum).Returns token := by
  refine ⟨fun locals => returns_tokenText malloc locals md5 hzero huser hfour hrand,
    length_tokenOf malloc, fun c => mem_hexDigits_of_mem_tokenOf, ?_,
    fun locals => not_returns_tokenText_eight malloc locals md5⟩
  rintro rfl
  exact hexText_digest_nil

/-- What the arrays hold when nothing else is known. -/
def zeroLocals (width : Des.Width) : Des.Locals width :=
  ⟨Vector.replicate 32 0, fun _ => Vector.replicate 32 0⟩

def zeroCtx : Md5.Ctx := ⟨0, 0, ⟨0, 0, 0, 0⟩, ⟨List.replicate 64 0, List.length_replicate⟩⟩

theorem tokenText_hex_with_memory :
    (tokenText true (zeroLocals .four) zeroCtx (bytes "mike") [383, 886, 777, 915]).Returns
      (some (bytes "a6c43181428f4539bd0055a324b6848f")) ∧
    ∀ token, ¬ (tokenText true (zeroLocals .eight) zeroCtx (bytes "mike")
      [383, 886, 777, 915]).Returns token := by
  obtain ⟨hreturns, -, -, -, hundefined⟩ := tokenText_hex true zeroCtx
    (by decide : 0 ∉ bytes "mike") (by decide)
    (by decide : ([383, 886, 777, 915] : List Int).length = 4) (by decide)
  have htoken : tokenOf true (bytes "mike") [383, 886, 777, 915] =
      bytes "a6c43181428f4539bd0055a324b6848f" := by decide +kernel
  exact ⟨htoken ▸ hreturns _, hundefined _⟩

end Token

end HfDfs
