import HfDfs.CJson.PrintBuffer
import HfDfs.Properties.JsonPrinting

/-!
# Printing JSON into a buffer

The text in the buffer is the one that is printed without it, for every tree
and every size the buffer starts with, and no cell outside the array is
written and none read before it is written.
-/

namespace HfDfs

set_option autoImplicit false

open GrowingText

namespace CJson

/-! ### What each part writes -/

section Parts

/-- What an action appends, while the text and the room a number asks for stay below the largest
array. -/
abbrev Appends (m : BufferM UInt8 Unit) (text : CString) : Prop := Writes (2 ^ 30) 64 m text

/-- The same, with the end of the text still to be found. -/
abbrev Prints (m : BufferM UInt8 Unit) (text : CString) : Prop := Leaves (0 : UInt8) (2 ^ 30) 64 m text

theorem le_pow2gt (n : Nat) (hn : 0 < n) (_ : n ≤ 2 ^ 30) : n ≤ pow2gt n := by
  obtain ⟨m, rfl⟩ := Nat.exists_eq_succ_of_ne_zero hn.ne'
  apply Nat.succ_le_succ
  iterate 4 refine le_trans ?_ Nat.left_le_or
  exact Nat.left_le_or

theorem Piece.Fits.prints {piece : Piece} (h : piece.Fits) : Prints piece.buffered piece.text := by
  cases h with
  | mk hlt hle => exact leaves_store le_pow2gt hlt hle

theorem appends_place {needed len : Nat} {text : CString} (behind : CString) (hlen : len = text.length)
    (hfit : text.length + behind.length ≤ needed) (hslack : needed ≤ text.length + 64) :
    Appends (place needed (text ++ behind) len) text := by
  subst hlen
  exact writes_store le_pow2gt (by rwa [List.length_append]) hslack

end Parts

/-! ### Values -/

section Values

variable {fmt : Bool} {depth : Nat}

theorem zero_notMem_valueText {item : Item} (h : ¬ item.Occurs 0) :
    0 ∉ valueText fmt item depth := fun hzero =>
  (own_valueText hzero).elim (by decide) h

theorem zero_notMem_printStringPtr {str : CString} (h : 0 ∉ str) : 0 ∉ (printStringPtr str).text :=
  fun hzero => (own_printStringPtr hzero).elim (by decide) h

theorem appends_comma (fmt : Bool) : Appends
    (place ((if fmt then 2 else 1) + 1) (0x2c :: (formatted fmt [0x20] ++ [0])) (if fmt then 2 else 1))
    (0x2c :: formatted fmt [0x20]) := by
  apply appends_place [0] <;> cases fmt <;> decide

theorem appends_bufferEntries_cons {item : Item} {rest : List Item} {entry : CString}
    {entries : List CString} (hitem : Prints (bufferValue fmt item depth) entry) (hentry : 0 ∉ entry)
    (hlength : rest.length = entries.length)
    (hrest : Appends (bufferEntries fmt rest depth) (joinEntries fmt entries)) :
    Appends (bufferEntries fmt (item :: rest) depth) (joinEntries fmt (entry :: entries)) := by
  rw [bufferEntries, ← bind_assoc]
  cases rest with
  | nil =>
    rw [List.length_nil, eq_comm, List.length_eq_zero_iff] at hlength
    subst hlength
    have := (hitem.update hentry).bind (writes_pure.bind hrest)
    rw [joinEntries, List.append_nil, List.append_nil] at this
    exact this
  | cons next rest =>
    obtain ⟨next, entries, rfl⟩ := List.exists_cons_of_length_eq_add_one hlength.symm
    have := (hitem.update hentry).bind ((appends_comma fmt).bind hrest)
    rw [joinEntries]
    · exact this
    · exact List.cons_ne_nil _ _

theorem appends_tabs (fmt : Bool) (depth : Nat) :
    Appends (if fmt then place depth (tabs depth) depth else pure ()) (formatted fmt (tabs depth)) := by
  cases fmt with
  | false => exact writes_pure
  | true =>
    have hlength : (tabs depth).length = depth := List.length_replicate
    have hplace := appends_place [] hlength.symm (by rw [hlength]; rfl) (Nat.le_add_right _ 64)
    rwa [List.append_nil, hlength] at hplace

theorem appends_colon (fmt : Bool) :
    Appends (place (if fmt then 2 else 1) (0x3a :: formatted fmt [0x09]) (if fmt then 2 else 1))
      (0x3a :: formatted fmt [0x09]) := by
  have hplace : Appends (place (if fmt then 2 else 1) (0x3a :: formatted fmt [0x09] ++ [])
      (if fmt then 2 else 1)) (0x3a :: formatted fmt [0x09]) := by
    apply appends_place <;> cases fmt <;> decide
  rwa [List.append_nil] at hplace

theorem appends_memberEnd (fmt last : Bool) :
    Appends (place ((if fmt then 1 else 0) + (if last then 0 else 1) + 1)
        ((if last then [] else [0x2c]) ++ (formatted fmt [0x0a] ++ [0]))
        ((if fmt then 1 else 0) + if last then 0 else 1))
      ((if last then [] else [0x2c]) ++ formatted fmt [0x0a]) := by
  rw [← List.append_assoc]
  apply appends_place [0] <;> cases fmt <;> cases last <;> decide

theorem appends_bufferMembers_cons {name : CString} {item : Item} {rest : List (CString × Item)}
    {value : CString} {entries : List (CString × CString)} (hname : 0 ∉ name)
    (hitem : Prints (bufferValue fmt item depth) value) (hvalue : 0 ∉ value)
    (hlength : rest.length = entries.length)
    (hrest : Appends (bufferMembers fmt rest depth) (joinMembers fmt depth entries)) :
    Appends (bufferMembers fmt ((name, item) :: rest) depth)
      (joinMembers fmt depth (((printStringPtr name).text, value) :: entries)) := by
  have hstring := (printStringPtr_fits name).prints.update (zero_notMem_printStringPtr hname)
  have hmember := (appends_tabs fmt depth).bind (hstring.bind ((appends_colon fmt).bind
    ((hitem.update hvalue).bind ((appends_memberEnd fmt rest.isEmpty).bind hrest))))
  simp only [bind_assoc] at hmember
  have htext : joinMembers fmt depth (((printStringPtr name).text, value) :: entries) =
      formatted fmt (tabs depth) ++ ((printStringPtr name).text ++
        (0x3a :: formatted fmt [0x09] ++ (value ++
          ((if rest.isEmpty then [] else [0x2c]) ++ formatted fmt [0x0a] ++
            joinMembers fmt depth entries)))) := by
    cases rest with
    | nil =>
      rw [List.length_nil, eq_comm, List.length_eq_zero_iff] at hlength
      simp [hlength, joinMembers, memberText]
    | cons next rest =>
      obtain ⟨next, entries, rfl⟩ := List.exists_cons_of_length_eq_add_one hlength.symm
      simp [joinMembers, memberText]
  rw [htext]
  exact hmember

theorem prints_array {item : Item} {rest : List Item} {entries : List CString}
    (h : Appends (bufferEntries fmt (item :: rest) (depth + 1)) (joinEntries fmt entries)) :
    Prints (bufferValue fmt (.array (item :: rest)) depth)
      (0x5b :: (joinEntries fmt entries ++ [0x5d])) := by
  have hopen : Appends (place 1 ([0x5b] ++ []) 1) [0x5b] := by
    apply appends_place <;> decide
  have hclose : Prints (Piece.buffered ⟨2, [0x5d]⟩) [0x5d] :=
    Piece.Fits.prints (.mk (by decide) (by decide))
  rw [bufferValue]
  exact hopen.bind_leaves (h.bind_leaves hclose)

theorem prints_object {m : CString × Item} {rest : List (CString × Item)}
    {entries : List (CString × CString)}
    (h : Appends (bufferMembers fmt (m :: rest) (depth + 1)) (joinMembers fmt (depth + 1) entries)) :
    Prints (bufferValue fmt (.object (m :: rest)) depth)
      (0x7b :: (formatted fmt [0x0a] ++ (joinMembers fmt (depth + 1) entries ++
        (formatted fmt (tabs depth) ++ [0x7d])))) := by
  have hopen : Appends (place ((if fmt then 2 else 1) + 1) (0x7b :: formatted fmt [0x0a] ++ [0])
      (if fmt then 2 else 1)) (0x7b :: formatted fmt [0x0a]) := by
    apply appends_place <;> cases fmt <;> decide
  have hclose : Prints
      (Piece.buffered ⟨if fmt then depth + 2 else 2, formatted fmt (tabs depth) ++ [0x7d]⟩)
      (formatted fmt (tabs depth) ++ [0x7d]) := by
    apply Piece.Fits.prints
    cases fmt <;> apply Piece.Fits.mk <;> simp [formatted, tabs]
  rw [bufferValue]
  exact hopen.bind_leaves (h.bind_leaves hclose)

theorem length_entryTexts (child : List Item) : (entryTexts fmt child depth).length = child.length := by
  induction child with
  | nil => rfl
  | cons item rest ih => exact congrArg Nat.succ ih

theorem length_memberTexts (child : List (CString × Item)) :
    (memberTexts fmt child depth).length = child.length := by
  induction child with
  | nil => rfl
  | cons m rest ih => exact congrArg Nat.succ ih

mutual

/-- The text that is printed without a buffer is the one that is printed into it. -/
theorem prints_value (fmt : Bool) {item : Item} (h : ¬ item.Occurs 0) (depth : Nat) :
    Prints (bufferValue fmt item depth) (valueText fmt item depth) := by
  cases item with
  | null => exact Piece.Fits.prints (.mk (by decide) (by decide))
  | false => exact Piece.Fits.prints (.mk (by decide) (by decide))
  | true => exact Piece.Fits.prints (.mk (by decide) (by decide))
  | number d => exact (printNumber_fits d).prints
  | string s => exact (printStringPtr_fits s).prints
  | array child =>
    have happends := appends_entries fmt h (depth + 1)
    cases child with
    | nil => exact Piece.Fits.prints (.mk (by decide) (by decide))
    | cons item rest => exact prints_array happends
  | object child =>
    have happends := appends_members fmt h (depth + 1)
    cases child with
    | nil => exact emptyObject_fits.prints
    | cons m rest => exact prints_object happends

theorem appends_entries (fmt : Bool) {child : List Item} (h : ¬ OccursItems 0 child) (depth : Nat) :
    Appends (bufferEntries fmt child depth) (joinEntries fmt (entryTexts fmt child depth)) := by
  cases child with
  | nil =>
    rw [bufferEntries, entryTexts, joinEntries]
    exact writes_pure
  | cons item rest =>
    rw [OccursItems, not_or] at h
    exact appends_bufferEntries_cons (prints_value fmt h.1 depth) (zero_notMem_valueText h.1)
      (length_entryTexts rest).symm (appends_entries fmt h.2 depth)

theorem appends_members (fmt : Bool) {child : List (CString × Item)} (h : ¬ OccursMembers 0 child)
    (depth : Nat) :
    Appends (bufferMembers fmt child depth)
      (joinMembers fmt depth (memberTexts fmt child depth)) := by
  cases child with
  | nil =>
    rw [bufferMembers, memberTexts, joinMembers]
    exact writes_pure
  | cons m rest =>
    rw [OccursMembers, not_or, not_or] at h
    obtain ⟨hname, hitem, hrest⟩ := h
    exact appends_bufferMembers_cons hname (prints_value fmt hitem depth)
      (zero_notMem_valueText hitem) (length_memberTexts rest).symm (appends_members fmt hrest depth)

end

/-- For every tree of C strings with a text that the sizes can count, `cJSON_Print` and
`cJSON_PrintUnformatted` have that text, and `cJSON_PrintBuffered` the same one, whatever the size
of the buffer at first. -/
theorem printBuffered_eq {item : Item} (h : ¬ item.Occurs 0) (prebuffer : Nat) (fmt : Bool)
    (hshort : Short (valueText fmt item 0)) :
    (if fmt then print item else printUnformatted item) = some (valueText fmt item 0) ∧
      printBuffered item prebuffer fmt = some (valueText fmt item 0) := by
  constructor
  · cases fmt with
    | false => exact printValue_of_short hshort
    | true => exact printValue_of_short hshort
  have hempty : Holds ([] : CString) ⟨List.replicate prebuffer none, 0⟩ := ⟨rfl, _, rfl⟩
  obtain ⟨p, hrun, -, tail, hcells⟩ := prints_value fmt h 0 [] _ hempty hshort
  have hout : out fmt item 0 0 = 0 := by
    rw [out.eq_def]
    split
    · exact ite_self 0
    · rfl
  rw [printBuffered, hrun, Option.bind_eq_bind, Option.bind_some, hout]
  exact (congrArg (textOf 0) hcells).trans (textOf_append (zero_notMem_valueText h) tail)

/-- A buffer of no size. -/
theorem printBuffered_from_nothing :
    print (.object [([0x61], .array [.null, .string [0x0a]])]) =
        some (bytes "\x7b\n\t\"a\":\t[null, \"\\n\"]\n\x7d") ∧
      printBuffered (.object [([0x61], .array [.null, .string [0x0a]])]) 0 true =
        some (bytes "\x7b\n\t\"a\":\t[null, \"\\n\"]\n\x7d") := by
  have hclean : ¬ Item.Occurs 0 (.object [([0x61], .array [.null, .string [0x0a]])]) := by
    simp [Item.Occurs, OccursMembers, OccursItems]
  have htext : valueText true (.object [([0x61], .array [.null, .string [0x0a]])]) 0 =
      bytes "\x7b\n\t\"a\":\t[null, \"\\n\"]\n\x7d" := by decide
  rw [← htext]
  exact printBuffered_eq hclean 0 true (by decide)

end Values

end CJson

end HfDfs
