/-
# Java strings, as far as the tools read them

Strings compare by their UTF-16 code units, which is a total order in which only
equal strings are equal. White space, `trim`, `split` by one character and the
lines of a `BufferedReader` follow the documentation of the library.
-/

import Mathlib.Data.List.AList
import Mathlib.Data.List.DropRight

namespace Colata.Java

/-- The UTF-16 code units of a character. -/
def units (c : Char) : List ℕ :=
  if c.toNat < 0x10000 then [c.toNat]
  else [0xd800 + (c.toNat - 0x10000) / 0x400, 0xdc00 + (c.toNat - 0x10000) % 0x400]

def utf16 (text : String) : List ℕ := text.toList.flatMap units

/-- No character's code units continue another's. -/
theorem units_append_inj {c d : Char} {first second : List ℕ}
    (h : units c ++ first = units d ++ second) : c = d ∧ first = second := by
  have hvalid : ∀ e : Char, e.toNat < 0xd800 ∨ 0xdfff < e.toNat ∧ e.toNat < 0x110000 :=
    fun e => e.valid
  have hchar : ∀ {e f : Char}, e.toNat = f.toNat → e = f := fun heq => Char.toNat_inj.mp heq
  have hc := hvalid c
  have hd := hvalid d
  unfold units at h
  split_ifs at h
  · simp only [List.cons_append, List.nil_append, List.cons.injEq] at h
    exact ⟨hchar h.1, h.2⟩
  · simp only [List.cons_append, List.nil_append, List.cons.injEq] at h
    omega
  · simp only [List.cons_append, List.nil_append, List.cons.injEq] at h
    omega
  · simp only [List.cons_append, List.nil_append, List.cons.injEq] at h
    exact ⟨hchar (by omega), h.2.2⟩

theorem utf16_injective {first second : String} (h : utf16 first = utf16 second) :
    first = second := by
  suffices hlist : ∀ left right : List Char, left.flatMap units = right.flatMap units →
      left = right from String.toList_inj.mp (hlist _ _ h)
  have hne : ∀ (c : Char) (rest : List ℕ), units c ++ rest ≠ [] := by
    intro c rest
    unfold units
    split_ifs <;> simp
  intro left
  induction left with
  | nil =>
      intro right heq
      cases right with
      | nil => rfl
      | cons d right => exact absurd heq.symm (hne d _)
  | cons c left ih =>
      intro right heq
      cases right with
      | nil => exact absurd heq (hne c _)
      | cons d right =>
          obtain ⟨rfl, hrest⟩ := units_append_inj heq
          rw [ih right hrest]

/-- The sign of `first.compareTo(second)`. -/
def compareTo (first second : String) : Ordering := compareOn utf16 first second

instance : Std.TransCmp compareTo := inferInstanceAs (Std.TransCmp (compareOn utf16))

instance : Std.LawfulEqCmp compareTo where
  compare_self := Std.ReflCmp.compare_self
  eq_of_compare := by
    intro first second h
    have hunits : compare (utf16 first) (utf16 second) = .eq := h
    exact utf16_injective (Std.LawfulEqCmp.eq_of_compare hunits)

/-- `text.startsWith(start)`. -/
def startsWith (text start : String) : Bool := start.toList.isPrefixOf text.toList

/-- `text.trim()` drops the characters up to U+0020 at both ends. -/
def trim (text : String) : String :=
  let isBlank := fun c : Char => decide (c.toNat ≤ 0x20)
  String.ofList ((text.toList.dropWhile isBlank).rdropWhile isBlank)

/-- `Character.isWhitespace(c)`. -/
def isWhitespace (c : Char) : Bool :=
  (9 ≤ c.toNat && c.toNat ≤ 0x0d) || (0x1c ≤ c.toNat && c.toNat ≤ 0x20) || c = '\u1680' ||
  (0x2000 ≤ c.toNat && c.toNat ≤ 0x200a && c ≠ '\u2007') || c = '\u2028' || c = '\u2029' ||
  c = '\u205f' || c = '\u3000'

/-- `text.isBlank()`. -/
def isBlank (text : String) : Bool := text.toList.all isWhitespace

/-- `text.split(separator)` for a separator of one character; empty strings at the end
are dropped, unless there is no separator. -/
def split (separator : Char) (text : String) : List String :=
  if separator ∈ text.toList then
    ((text.toList.splitOn separator).rdropWhile List.isEmpty).map String.ofList
  else [text]

/-- The lines that `BufferedReader.readLine` yields, where `line` is the current one. -/
def linesFrom (line : List Char) : List Char → List String
  | [] => if line.isEmpty then [] else [String.ofList line]
  | '\r' :: '\n' :: text => String.ofList line :: linesFrom [] text
  | c :: text =>
      if c = '\n' || c = '\r' then String.ofList line :: linesFrom [] text
      else linesFrom (line ++ [c]) text

/-- The lines of a text; a terminator at the end starts no further line. -/
def lines (text : String) : List String := linesFrom [] text.toList

example : lines "a\r\n\nb\n" = ["a", "", "b"] := by decide

/-- No line terminator. -/
def Plain (text : List Char) : Prop := ∀ c ∈ text, c ≠ '\n' ∧ c ≠ '\r'

instance (text : List Char) : Decidable (Plain text) :=
  List.decidableBAll (fun c => c ≠ '\n' ∧ c ≠ '\r') text

theorem linesFrom_append {text : List Char} (hplain : Plain text) (line after : List Char) :
    linesFrom line (text ++ after) = linesFrom (line ++ text) after := by
  induction text generalizing line with
  | nil => simp
  | cons c text ih =>
      obtain ⟨hnewline, hreturn⟩ := hplain c List.mem_cons_self
      have hstep : linesFrom line (c :: (text ++ after)) = linesFrom (line ++ [c]) (text ++ after) := by
        rw [linesFrom.eq_3 _ _ _ fun _ hc => absurd hc hreturn]
        simp [hnewline, hreturn]
      rw [List.cons_append, hstep, ih fun d hd => hplain d (List.mem_cons_of_mem c hd)]
      simp

theorem plain_of_mem_linesFrom {line text : List Char} (hplain : Plain line) :
    ∀ found ∈ linesFrom line text, Plain found.toList := by
  have hnil : Plain [] := List.forall_mem_nil _
  fun_induction linesFrom line text with
  | case1 => simp
  | case2 line hne =>
      intro found hfound
      obtain rfl := List.mem_singleton.mp hfound
      rwa [String.toList_ofList]
  | case3 line text ih =>
      intro found hfound
      rcases List.mem_cons.mp hfound with rfl | hfound
      · rwa [String.toList_ofList]
      · exact ih hnil found hfound
  | case4 line c text hc hend ih =>
      intro found hfound
      rcases List.mem_cons.mp hfound with rfl | hfound
      · rwa [String.toList_ofList]
      · exact ih hnil found hfound
  | case5 line c text hc hend ih =>
      apply ih
      intro d hd
      rcases List.mem_append.mp hd with hd | hd
      · exact hplain d hd
      · obtain rfl := List.mem_singleton.mp hd
        simpa using hend

theorem plain_of_mem_lines {text line : String} (h : line ∈ lines text) : Plain line.toList :=
  plain_of_mem_linesFrom (List.forall_mem_nil _) line h

/-- The lines of a text that ends each of its lines. -/
theorem linesFrom_flatMap {texts : List String} (hplain : ∀ text ∈ texts, Plain text.toList) :
    linesFrom [] (texts.flatMap fun text => text.toList ++ ['\n']) = texts := by
  induction texts with
  | nil => rfl
  | cons first texts ih =>
      have hfirst := linesFrom_append (hplain first List.mem_cons_self) []
      have hrest := ih fun text htext => hplain text (List.mem_cons_of_mem first htext)
      rw [List.flatMap_cons, List.append_assoc, hfirst]
      simp [linesFrom, hrest]

/-- The lines of a text that was put together from lines, of which the last is not empty. -/
theorem lines_intercalate {texts : List String} (hplain : ∀ text ∈ texts, Plain text.toList)
    (hlast : texts.getLast? ≠ some "") : lines ("\n".intercalate texts) = texts := by
  induction texts with
  | nil => rfl
  | cons first texts ih =>
      have hfirst := linesFrom_append (hplain first List.mem_cons_self) []
      cases texts with
      | nil =>
          have hne : first.toList ≠ [] := by simpa using hlast
          have hend := hfirst []
          rw [List.append_nil] at hend
          rw [String.intercalate_singleton, lines, hend, linesFrom]
          simp [hne]
      | cons second texts =>
          have hrest := ih (fun text htext => hplain text (List.mem_cons_of_mem first htext))
            (by simpa using hlast)
          rw [String.intercalate_cons_cons]
          generalize "\n".intercalate (second :: texts) = after at hrest ⊢
          rw [lines] at hrest
          rw [lines, String.toList_append, String.toList_append, List.append_assoc, hfirst]
          simp [linesFrom, hrest]

end Colata.Java
