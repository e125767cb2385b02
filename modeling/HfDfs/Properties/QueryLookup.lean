import HfDfs.Library.Search
import HfDfs.UtilMemory

/-!
# What `query_parse_key_value` delivers

The key is sought as a part of the whole query string. It has none of the
separators, so what is found lies in one of the texts n1, v1, n2, v2, …; which
one it is decides what is delivered.
-/

namespace HfDfs

set_option autoImplicit false

open Execution Execution.Code Searching

namespace Memory

variable {key t rest v : CString} {x : UInt8} {pairs : List (CString × CString)}

theorem strstr_eq_occurrence (haystack needle : CString) :
    strstr haystack needle = (occurrence needle haystack).map (haystack.drop ·) := by
  induction haystack with
  | nil =>
    cases needle with
    | nil => rfl
    | cons c needle => rfl
  | cons c haystack ih =>
    rw [occurrence, strstr, List.tails_cons, List.find?_cons]
    split
    · rename_i hhere
      rw [if_pos (List.isPrefixOf_iff_prefix.mp hhere)]
      rfl
    · rename_i hhere
      rw [if_neg fun h => Bool.false_ne_true (hhere ▸ List.isPrefixOf_iff_prefix.mpr h)]
      rw [← strstr, ih, Option.map_map]
      rfl

/-- What is behind the first occurrence of the key in a text. -/
def behind (key t : CString) : CString := t.drop ((occurrence key t).getD 0 + key.length)

theorem strstr_of_infix (h : key <:+: t) : strstr t key = some (key ++ behind key t) := by
  cases hn : occurrence key t with
  | none => exact absurd h (occurrence_eq_none_iff.mp hn)
  | some n =>
    obtain ⟨hstarts, -⟩ := occurrence_eq_some_iff.mp hn
    rw [strstr_eq_occurrence, behind, hn, Option.map_some, Option.getD_some, ← List.drop_drop,
      List.prefix_iff_eq_append.mp hstarts]

theorem prefix_of_strstr {haystack found : CString} (h : strstr haystack key = some found) :
    key <+: found := List.isPrefixOf_iff_prefix.mp (List.find?_some h)

theorem subset_of_strstr {haystack found : CString} (h : strstr haystack key = some found) :
    found ⊆ haystack := ((List.mem_tails _ _).mp (List.mem_of_find?_eq_some h)).subset

theorem strstr_append_of_occurs (h : key <:+: t) (rest : CString) :
    strstr (t ++ rest) key = some (key ++ behind key t ++ rest) := by
  cases hn : occurrence key t with
  | none => exact absurd h (occurrence_eq_none_iff.mp hn)
  | some n =>
    have hfit := occurrence_le hn
    have hfound := strstr_of_infix h
    rw [strstr_eq_occurrence, hn, Option.map_some] at hfound
    rw [strstr_eq_occurrence, occurrence_append hn, Option.map_some,
      List.drop_append_of_le_length (by omega), Option.some.inj hfound]

theorem strstr_append_cons (hne : key ≠ []) (hx : x ∉ key) (h : ¬ key <:+: t) (rest : CString) :
    strstr (t ++ x :: rest) key = strstr rest key := by
  rw [strstr_eq_occurrence, strstr_eq_occurrence,
    occurrence_append_cons hne hx (occurrence_eq_none_iff.mpr h), Option.map_map]
  congr 1
  funext n
  rw [Function.comp_apply, Nat.add_comm, ← List.drop_drop, List.append_cons,
    List.drop_left' (by simp)]

/-! ## Query strings -/

/-- Without `&`, `#`, `=` and NUL. -/
def Plain (t : CString) : Prop := 0x26 ∉ t ∧ 0x23 ∉ t ∧ 0x3D ∉ t ∧ 0 ∉ t

instance (t : CString) : Decidable (Plain t) := inferInstanceAs (Decidable (_ ∧ _))

structure Parameter where
  name : CString
  value : CString
  name_ne : name ≠ []
  name_plain : Plain name
  value_plain : Plain value

def Parameter.text (p : Parameter) : CString := p.name ++ 0x3D :: p.value

def queryString : List Parameter → CString
  | [] => []
  | [p] => p.text
  | p :: q :: rest => p.text ++ 0x26 :: queryString (q :: rest)

/-- What the search leads to: in the first text with the key, what is behind the key and one more
byte, up to the end of the parameter. Behind a value comes the next parameter, and nothing behind
the last one. -/
def found (key : CString) : List Parameter → Option (Option CString)
  | [] => none
  | p :: rest =>
    if key <:+: p.name then
      match behind key p.name with
      | [] => some (some p.value)
      | _ :: b => some (some (b ++ 0x3D :: p.value))
    else if key <:+: p.value then
      match behind key p.value with
      | [] => some (rest.head?.map Parameter.text)
      | _ :: b => some (some b)
    else found key rest

theorem found_eq_none_iff (parameters : List Parameter) : found key parameters = none ↔
    ∀ p ∈ parameters, ¬ key <:+: p.name ∧ ¬ key <:+: p.value := by
  induction parameters with
  | nil => simp [found]
  | cons p rest ih =>
    rw [found, List.forall_mem_cons]
    split
    · rename_i hname
      refine iff_of_false ?_ fun h => h.1.1 hname
      split <;> simp
    · rename_i hname
      split
      · rename_i hvalue
        refine iff_of_false ?_ fun h => h.1.2 hvalue
        split <;> simp
      · rename_i hvalue
        rw [ih]
        exact (and_iff_right ⟨hname, hvalue⟩).symm

theorem zero_notMem_queryString (parameters : List Parameter) : 0 ∉ queryString parameters := by
  have htext : ∀ p : Parameter, 0 ∉ p.text := by
    intro p
    simp [Parameter.text, p.name_plain.2.2.2, p.value_plain.2.2.2]
  fun_induction queryString parameters with
  | case1 => simp
  | case2 p => exact htext p
  | case3 p q rest ih => simp [htext p, ih]

/-- `'\0' != *end && '#' != *end && '&' != *end` within a string -/
abbrev inText (c : UInt8) : Bool := c ≠ 0x23 && c ≠ 0x26

/-- What a parameter is followed by. -/
def Ends (more : CString) : Prop := more = [] ∨ ∃ rest, more = 0x26 :: rest

theorem takeWhile_inText {more : CString} (ht : 0x26 ∉ t) (ht' : 0x23 ∉ t) (hmore : Ends more) :
    (t ++ more).takeWhile inText = t := by
  have hall : ∀ c ∈ t, inText c = true := by
    intro c hc
    have h1 : c ≠ 0x23 := fun h => ht' (h ▸ hc)
    have h2 : c ≠ 0x26 := fun h => ht (h ▸ hc)
    simp [inText, h1, h2]
  rw [List.takeWhile_append_of_pos hall]
  rcases hmore with rfl | ⟨rest, rfl⟩
  · rw [List.takeWhile_nil, List.append_nil]
  · rw [List.takeWhile_cons_of_neg (by decide), List.append_nil]

theorem behind_subset (key t : CString) : behind key t ⊆ t := List.drop_subset _ _

/-- From where the key starts: nothing where the string ends behind it. -/
def delivered (key temp : CString) : Option CString :=
  (temp.drop key.length).tail?.map (List.takeWhile inText)

theorem delivered_nil (key : CString) : delivered key key = none := by
  rw [delivered, List.drop_length]
  rfl

theorem delivered_cons (key temp : CString) (c : UInt8) :
    delivered key (key ++ c :: temp) = some (temp.takeWhile inText) := by
  rw [delivered, List.drop_left]
  rfl

/-- One parameter and what is behind it. -/
theorem strstr_parameter (hne : key ≠ []) (hkey : Plain key) (p : Parameter) {more : CString}
    (hmore : Ends more) :
    (strstr (p.text ++ more) key).map (delivered key) =
      if key <:+: p.name then
        match behind key p.name with
        | [] => some (some p.value)
        | _ :: b => some (some (b ++ 0x3D :: p.value))
      else if key <:+: p.value then
        match behind key p.value with
        | [] => some (delivered key (key ++ more))
        | _ :: b => some (some b)
      else (strstr more key).map (delivered key) := by
  obtain ⟨hname1, hname2, -, -⟩ := p.name_plain
  obtain ⟨hvalue1, hvalue2, -, -⟩ := p.value_plain
  rw [Parameter.text, List.append_assoc, List.cons_append]
  split
  · rename_i hname
    rw [strstr_append_of_occurs hname, Option.map_some]
    cases hbehind : behind key p.name with
    | nil =>
      rw [List.append_nil, delivered_cons, takeWhile_inText hvalue1 hvalue2 hmore]
    | cons c b =>
      have hsub : ∀ x ∈ b, x ∈ p.name := fun x hx =>
        behind_subset key p.name (hbehind ▸ List.mem_cons_of_mem c hx)
      have hb1 : 0x26 ∉ b := fun h => hname1 (hsub _ h)
      have hb2 : 0x23 ∉ b := fun h => hname2 (hsub _ h)
      have htext : (b ++ 0x3D :: p.value ++ more).takeWhile inText = b ++ 0x3D :: p.value := by
        refine takeWhile_inText ?_ ?_ hmore
        · simp [hvalue1, hb1]
        · simp [hvalue2, hb2]
      rw [List.append_assoc, List.cons_append, delivered_cons, ← List.cons_append,
        ← List.append_assoc, htext]
  · rename_i hname
    rw [strstr_append_cons hne hkey.2.2.1 hname]
    split
    · rename_i hvalue
      rw [strstr_append_of_occurs hvalue, Option.map_some]
      cases hbehind : behind key p.value with
      | nil => rw [List.append_nil]
      | cons c b =>
        have hsub : ∀ x ∈ b, x ∈ p.value := fun x hx =>
          behind_subset key p.value (hbehind ▸ List.mem_cons_of_mem c hx)
        rw [List.append_assoc, List.cons_append, delivered_cons,
          takeWhile_inText (fun h => hvalue1 (hsub _ h)) (fun h => hvalue2 (hsub _ h)) hmore]
    · rename_i hvalue
      have hnil : ¬ key <:+: [] := fun h => hne (List.infix_nil.mp h)
      congr 1
      rcases hmore with rfl | ⟨rest, rfl⟩
      · have hnone : ∀ t, ¬ key <:+: t → strstr t key = none := by
          intro t ht
          rw [strstr_eq_occurrence, occurrence_eq_none_iff.mpr ht]
          rfl
        rw [List.append_nil, hnone _ hvalue, hnone [] hnil]
      · rw [strstr_append_cons hne hkey.1 hvalue]
        exact (strstr_append_cons (t := []) hne hkey.1 hnil rest).symm

theorem strstr_queryString (hne : key ≠ []) (hkey : Plain key) (parameters : List Parameter) :
    (strstr (queryString parameters) key).map (delivered key) = found key parameters := by
  fun_induction queryString parameters with
  | case1 =>
    have hnil : occurrence key [] = none := by rw [occurrence, if_neg hne]
    rw [strstr_eq_occurrence, hnil]
    rfl
  | case2 p =>
    have hnil : occurrence key [] = none := by rw [occurrence, if_neg hne]
    have hp := strstr_parameter hne hkey p (Or.inl rfl)
    rw [List.append_nil, List.append_nil, delivered_nil, strstr_eq_occurrence [], hnil] at hp
    exact hp
  | case3 p q rest ih =>
    have hnil : ¬ key <:+: [] := fun h => hne (List.infix_nil.mp h)
    have hskip : strstr (0x26 :: queryString (q :: rest)) key = strstr (queryString (q :: rest)) key :=
      strstr_append_cons (t := []) hne hkey.1 hnil _
    have hnext : (queryString (q :: rest)).takeWhile inText = q.text := by
      have htext : ∀ c ∈ [0x26, 0x23], c ∉ q.text := by
        simp [Parameter.text, q.name_plain.1, q.name_plain.2.1, q.value_plain.1, q.value_plain.2.1]
      cases rest with
      | nil =>
        have h := takeWhile_inText (htext 0x26 (by simp)) (htext 0x23 (by simp)) (Or.inl rfl)
        rwa [List.append_nil] at h
      | cons r rest =>
        exact takeWhile_inText (htext 0x26 (by simp)) (htext 0x23 (by simp)) (Or.inr ⟨_, rfl⟩)
    rw [strstr_parameter hne hkey p (Or.inr ⟨_, rfl⟩), delivered_cons, hnext, hskip, ih]
    rfl

/-! ## The function -/

/-- The value of the first parameter with that name, as a string, or nothing. -/
def LooksUp (parameters : List Parameter) (key : CString) (value : List UInt8)
    (valueLen : Option Int) : Prop :=
  match parameters.find? (·.name = key) with
  | some p => ∃ after, (queryParseKeyValue (queryString parameters) key value valueLen).Returns
      (0, p.value ++ 0 :: after, valueLen.map fun _ => (p.value.length : Int))
  | none => (queryParseKeyValue (queryString parameters) key value valueLen).Returns
      (-1, value, valueLen)

theorem returns_copyString {value b : List UInt8} {n : Nat} (hn : n ≤ t.length) :
    (copyString value t n).Returns b ↔ n ≤ value.length ∧ b = t.take n ++ value.drop n := by
  have hlength : (t.take n).length = n := List.length_take_of_le hn
  have hcopy : copyString value t n = writeAll value 0 (t.take n) := by
    change writeAll value 0 ((t ++ List.replicate (n - t.length) 0).take n) = _
    rw [List.take_append_of_le_length hn]
  rw [hcopy]
  rcases Nat.lt_or_ge value.length n with hlt | hle
  · refine iff_of_false (fun h => ?_) fun h => by omega
    have hle := le_of_returns_writeAll h fun hnil => by
      rw [hnil, List.length_nil] at hlength
      omega
    omega
  · have hfit : 0 + (t.take n).length ≤ value.length := by omega
    rw [returns_writeAll_of_le hfit, hlength, Nat.zero_add, List.take_zero, List.nil_append]
    exact (and_iff_right hle).symm

/-- `strncpy(value, temp, n); value[n] = 0;` -/
theorem returns_terminated {value b : List UInt8} {n : Nat} (hn : n ≤ t.length) :
    (∃ copied, (copyString value t n).Returns copied ∧ (write copied n 0).Returns b) ↔
      n < value.length ∧ b = t.take n ++ 0 :: value.drop (n + 1) := by
  have hlength : (t.take n).length = n := List.length_take_of_le hn
  have hset : n < value.length → (t.take n ++ value.drop n).set n 0 =
      t.take n ++ 0 :: value.drop (n + 1) := by
    intro hlt
    rw [List.set_append_right _ _ (by omega), hlength, Nat.sub_self,
      List.drop_eq_getElem_cons hlt, List.set_cons_zero]
  simp only [returns_copyString hn, returns_write, and_assoc, exists_and_left, exists_eq_left,
    List.length_append, hlength, List.length_drop]
  constructor
  · rintro ⟨hle, hlt, rfl⟩
    exact ⟨by omega, hset (by omega)⟩
  · rintro ⟨hlt, rfl⟩
    exact ⟨by omega, by omega, (hset hlt).symm⟩

/-- What is delivered is cut to its length modulo 2^32. -/
theorem returns_queryParse {query temp : CString} {c : UInt8} {value : List UInt8}
    {valueLen : Option Int} (hquery : strstr query key = some (key ++ c :: temp))
    (h0 : 0 ∉ temp) (hv : 0 ∉ v) (hroom : v.length < value.length) :
    (∃ after, (queryParseKeyValue query key value valueLen).Returns
        (0, v ++ 0 :: after, valueLen.map fun _ => (v.length : Int))) ↔
      (temp.takeWhile inText).length % 2 ^ 32 < 2 ^ 31 ∧
        (temp.takeWhile inText).take ((temp.takeWhile inText).length % 2 ^ 32) = v := by
  have hlen := int32_natCast (temp.takeWhile inText).length
  have hparse : ∀ written rest, (queryParseKeyValue query key value valueLen).Returns
      (0, written, rest) ↔
        (∃ copied, (copyString value temp (int32 (temp.takeWhile inText).length)).Returns copied ∧
          (write copied (int32 (temp.takeWhile inText).length) 0).Returns written) ∧
        rest = valueLen.map fun _ => int32 (temp.takeWhile inText).length := by
    intro written rest
    rw [queryParseKeyValue, hquery]
    simp only [List.drop_left, returns_bind, returns_pure, Prod.mk.injEq, true_and]
    constructor
    · rintro ⟨copied, hcopied, _, hwritten, rfl, rfl⟩
      exact ⟨⟨copied, hcopied, hwritten⟩, rfl⟩
    · rintro ⟨⟨copied, hcopied, hwritten⟩, rfl⟩
      exact ⟨copied, hcopied, written, hwritten, rfl, rfl⟩
  have htext : temp.takeWhile inText <+: temp := List.takeWhile_prefix _
  generalize temp.takeWhile inText = text at *
  simp only [hparse]
  split at hlen
  · rename_i hcut
    have hmod := Nat.mod_le text.length (2 ^ 32)
    have htake : temp.take (text.length % 2 ^ 32) = text.take (text.length % 2 ^ 32) := by
      obtain ⟨more, rfl⟩ := htext
      rw [List.take_append_of_le_length hmod]
    have hlength : (text.take (text.length % 2 ^ 32)).length = text.length % 2 ^ 32 :=
      List.length_take_of_le hmod
    rw [hlen]
    simp only [returns_terminated (Nat.le_trans hmod htext.length_le), htake]
    constructor
    · rintro ⟨after, ⟨-, heq⟩, -⟩
      have h0text : 0 ∉ text.take (text.length % 2 ^ 32) :=
        fun h => h0 (htext.subset (List.mem_of_mem_take h))
      exact ⟨hcut, (string_inj hv h0text heq).symm⟩
    · rintro ⟨-, rfl⟩
      rw [hlength] at hroom
      exact ⟨_, ⟨hroom, rfl⟩, by rw [hlength]⟩
  · rename_i hcut
    refine iff_of_false ?_ fun h => hcut h.1
    rintro ⟨after, ⟨copied, hcopied, -⟩, -⟩
    have hneg : int32 text.length < 0 := by
      have hlt := Nat.mod_lt text.length (show 0 < 2 ^ 32 by decide)
      omega
    generalize int32 text.length = len at *
    cases len with
    | ofNat m => exact absurd hneg (by simp)
    | negSucc m => exact not_returns_undefined hcopied

/-- Where the key is not found, or what is behind it is behind the string. -/
theorem returns_queryParse_none {query : CString} {value : List UInt8} {valueLen : Option Int}
    {r : Int × List UInt8 × Option Int} (hquery : strstr query key = none) :
    (queryParseKeyValue query key value valueLen).Returns r ↔ r = (-1, value, valueLen) := by
  rw [queryParseKeyValue, hquery]
  exact returns_pure

theorem not_returns_queryParse {query : CString} {value : List UInt8} {valueLen : Option Int}
    {r : Int × List UInt8 × Option Int} (hquery : strstr query key = some key) :
    ¬ (queryParseKeyValue query key value valueLen).Returns r := by
  rw [queryParseKeyValue, hquery]
  simp only [List.drop_length]
  exact not_returns_undefined

theorem fst_of_returns_queryParse {query temp : CString} {value : List UInt8}
    {valueLen : Option Int} {r : Int × List UInt8 × Option Int}
    (hquery : strstr query key = some temp)
    (h : (queryParseKeyValue query key value valueLen).Returns r) : r.1 = 0 := by
  rw [queryParseKeyValue, hquery] at h
  cases hdrop : temp.drop key.length with
  | nil =>
    simp only [hdrop] at h
    exact absurd h not_returns_undefined
  | cons c temp =>
    simp only [hdrop, returns_bind, returns_pure] at h
    obtain ⟨_, -, _, -, rfl⟩ := h
    rfl

/-- On the array it is what it is on the string, if the length of what is delivered is an `int`. -/
theorem returns_queryParse_list {query text old : CString} {value : List UInt8} {ret : Int}
    {valueLen : Option Int} (h0 : 0 ∉ query) (hint : text.length < 2 ^ 31)
    (h : HfDfs.queryParseKeyValue value.length query key old = some (ret, text)) :
    (ret = -1 ∧ (queryParseKeyValue query key value valueLen).Returns (-1, value, valueLen)) ∨
      (ret = 0 ∧ ∃ after, (queryParseKeyValue query key value valueLen).Returns
        (0, text ++ 0 :: after, valueLen.map fun _ => (text.length : Int))) := by
  rw [HfDfs.queryParseKeyValue] at h
  cases hstr : strstr query key with
  | none =>
    simp only [hstr, Option.some.injEq, Prod.mk.injEq] at h
    exact Or.inl ⟨h.1.symm, (returns_queryParse_none hstr).mpr rfl⟩
  | some found =>
    obtain ⟨behind, rfl⟩ := prefix_of_strstr hstr
    rw [hstr] at h
    simp only [List.drop_left] at h
    cases behind with
    | nil => cases h
    | cons c temp =>
      change (if (temp.takeWhile inText).length < value.length then
        some (0, temp.takeWhile inText) else none) = some (ret, text) at h
      have htemp : 0 ∉ temp := fun hmem => h0
        (subset_of_strstr hstr (List.mem_append_right key (List.mem_cons_of_mem c hmem)))
      split at h
      · rename_i hroom
        cases h
        have htext : 0 ∉ temp.takeWhile inText := fun hmem =>
          htemp ((List.takeWhile_prefix _).subset hmem)
        refine Or.inr ⟨rfl, (returns_queryParse hstr htemp htext hroom).mpr ?_⟩
        rw [Nat.mod_eq_of_lt (by omega)]
        exact ⟨hint, List.take_length⟩
      · cases h

/-- `query_parse_key_value` looks a key up if the search leads to its value: if no parameter has
the name, the key may be part of no name and no value; otherwise what is behind the first
occurrence, cut to its length modulo 2^32, has to be the value. -/
theorem looksUp_iff (parameters : List Parameter) (key : CString) (value : List UInt8)
    (valueLen : Option Int) (hne : key ≠ []) (hkey : Plain key)
    (hroom : ∀ p, parameters.find? (·.name = key) = some p → p.value.length < value.length) :
    LooksUp parameters key value valueLen ↔
      match parameters.find? (·.name = key) with
      | some p => ∃ text, found key parameters = some (some text) ∧
          text.length % 2 ^ 32 < 2 ^ 31 ∧ text.take (text.length % 2 ^ 32) = p.value
      | none => ∀ p ∈ parameters, ¬ key <:+: p.name ∧ ¬ key <:+: p.value := by
  have hfound := strstr_queryString hne hkey parameters
  rw [LooksUp]
  cases hfind : parameters.find? (·.name = key) with
  | none =>
    rw [← found_eq_none_iff, ← hfound, Option.map_eq_none_iff]
    constructor
    · intro hreturns
      cases hstr : strstr (queryString parameters) key with
      | none => rfl
      | some temp => exact absurd (fst_of_returns_queryParse hstr hreturns) (show (-1 : Int) ≠ 0 by decide)
    · exact fun hstr => (returns_queryParse_none hstr).mpr rfl
  | some p =>
    have hp : p.name = key := by simpa using List.find?_some hfind
    cases hstr : strstr (queryString parameters) key with
    | none =>
      rw [hstr, Option.map_none, eq_comm, found_eq_none_iff] at hfound
      exact absurd (hp ▸ List.infix_rfl) (hfound p (List.mem_of_find?_eq_some hfind)).1
    | some found =>
      obtain ⟨behind, rfl⟩ := prefix_of_strstr hstr
      rw [hstr, Option.map_some] at hfound
      cases behind with
      | nil =>
        rw [List.append_nil] at hstr hfound
        rw [delivered_nil] at hfound
        refine iff_of_false (fun h => ?_) fun h => ?_
        · obtain ⟨after, hreturns⟩ := h
          exact not_returns_queryParse hstr hreturns
        · obtain ⟨text, htext, -⟩ := h
          cases hfound.trans htext
      | cons c temp =>
        have h0 : 0 ∉ temp := fun h => zero_notMem_queryString parameters
          (subset_of_strstr hstr (List.mem_append_right key (List.mem_cons_of_mem c h)))
        rw [delivered_cons] at hfound
        simp only [← hfound, Option.some.injEq, exists_eq_left']
        exact returns_queryParse hstr h0 p.value_plain.2.2.2 (hroom p hfind)

theorem looksUp_second :
    LooksUp [⟨bytes "user", bytes "mike", by decide, by decide, by decide⟩,
        ⟨bytes "cmd", bytes "del", by decide, by decide, by decide⟩]
      (bytes "cmd") (List.replicate 20 7) none :=
  (looksUp_iff _ (bytes "cmd") (List.replicate 20 7) none (by decide) (by decide) (by
    intro p hp
    cases hp
    decide)).mpr ⟨bytes "del", by decide, by decide, by decide⟩

/-- The name of the first parameter ends with the key: its value is delivered. -/
theorem not_looksUp_ending :
    ¬ LooksUp [⟨bytes "xcmd", bytes "1", by decide, by decide, by decide⟩,
        ⟨bytes "cmd", bytes "2", by decide, by decide, by decide⟩]
      (bytes "cmd") (List.replicate 20 7) none := by
  rintro ⟨after, hreturns⟩
  have hstr : strstr (bytes "xcmd=1&cmd=2") (bytes "cmd") =
      some (bytes "cmd" ++ 0x3D :: bytes "1&cmd=2") := by decide
  have hvalue := (returns_queryParse hstr (by decide) (by decide) (by decide)).mp
    ⟨after, hreturns⟩
  exact absurd hvalue.2 (by decide)

end Memory

end HfDfs
