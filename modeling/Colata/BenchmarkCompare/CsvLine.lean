/-
# Lines of a CSV file

`parseCsvLine` splits a line at the commas outside quotes. It undoes the usual way
of writing fields: a field stands as is if it has neither a comma nor a quote, and
otherwise in quotes, with its own quotes doubled.
-/

import Mathlib.Data.List.Basic

namespace Colata.BenchmarkCompare

/-- The loop state of `parseCsvLine`. -/
structure CsvScan where
  result : List String
  sb : List Char
  inQuotes : Bool

namespace CsvScan

def initial : CsvScan := ⟨[], [], false⟩

/-- `sb.append(c)`. -/
def append (scan : CsvScan) (c : Char) : CsvScan := { scan with sb := scan.sb ++ [c] }

/-- A quote that is not escaped opens or closes the quotes. -/
def toggle (scan : CsvScan) : CsvScan := { scan with inQuotes := !scan.inQuotes }

/-- `result.add(sb.toString()); sb.setLength(0)`. -/
def endField (scan : CsvScan) : CsvScan :=
  { scan with result := scan.result ++ [String.ofList scan.sb], sb := [] }

/-- One turn of the loop, off the lookahead for a doubled quote. -/
def step (scan : CsvScan) (c : Char) : CsvScan :=
  if c = '"' then scan.toggle
  else if c = ',' && !scan.inQuotes then scan.endField
  else scan.append c

/-- The loop over the characters; a doubled quote inside quotes is taken at once. -/
def run (scan : CsvScan) : List Char → CsvScan
  | [] => scan
  | [c] => scan.step c
  | c :: next :: rest =>
      if c = '"' && scan.inQuotes && next = '"' then run (scan.append '"') rest
      else run (scan.step c) (next :: rest)

end CsvScan

def parseCsvLine (line : String) : List String :=
  (CsvScan.initial.run line.toList).endField.result

/-! ## Writing fields -/

/-- A field together with the way it is written: as is, which its text must allow, or
in quotes. -/
inductive CsvField
  | plain (text : String) (valid : ∀ c ∈ text.toList, c ≠ ',' ∧ c ≠ '"')
  | quoted (text : String)

namespace CsvField

def text : CsvField → String
  | plain text _ => text
  | quoted text => text

/-- Double every quote. -/
def escape (text : List Char) : List Char :=
  text.flatMap fun c => if c = '"' then ['"', '"'] else [c]

def written : CsvField → List Char
  | plain text _ => text.toList
  | quoted text => '"' :: (escape text.toList ++ ['"'])

end CsvField

/-- The line with these fields, the first of them apart. -/
def csvLine (field : CsvField) (fields : List CsvField) : String :=
  String.ofList (field.written ++ fields.flatMap fun next => ',' :: next.written)

/-! ## Reading back -/

namespace CsvScan

/-- A character that no doubled quote starts with is taken alone. -/
theorem run_cons {scan : CsvScan} {c : Char} {line : List Char}
    (h : c ≠ '"' ∨ scan.inQuotes = false ∨ line.head? ≠ some '"') :
    run scan (c :: line) = run (scan.step c) line := by
  cases line with
  | nil => rfl
  | cons next rest =>
      rw [run, if_neg]
      simpa [or_iff_not_imp_left] using h

theorem run_comma (result : List String) (sb rest : List Char) :
    run ⟨result, sb, false⟩ (',' :: rest) = run ⟨result ++ [String.ofList sb], [], false⟩ rest :=
  run_cons (Or.inr (Or.inl rfl))

/-- Characters without a special meaning go to the field. -/
theorem run_plain (result : List String) (sb : List Char) {text : List Char}
    (htext : ∀ c ∈ text, c ≠ ',' ∧ c ≠ '"') (rest : List Char) :
    run ⟨result, sb, false⟩ (text ++ rest) = run ⟨result, sb ++ text, false⟩ rest := by
  induction text generalizing sb with
  | nil => rw [List.nil_append, List.append_nil]
  | cons c text ih =>
      obtain ⟨hcomma, hquote⟩ := htext c List.mem_cons_self
      have hstep : step ⟨result, sb, false⟩ c = ⟨result, sb ++ [c], false⟩ := by
        simp [step, hcomma, hquote, append]
      rw [List.cons_append, run_cons (Or.inl hquote), hstep,
        ih _ fun d hd => htext d (List.mem_cons_of_mem c hd), List.append_assoc,
        List.singleton_append]

/-- Inside quotes an escaped text up to the closing quote goes to the field, provided no
further quote follows. -/
theorem run_escape (result : List String) (sb text : List Char) {rest : List Char}
    (hrest : rest.head? ≠ some '"') :
    run ⟨result, sb, true⟩ (CsvField.escape text ++ '"' :: rest) =
      run ⟨result, sb ++ text, false⟩ rest := by
  induction text generalizing sb with
  | nil =>
      show run ⟨result, sb, true⟩ ('"' :: rest) = _
      rw [List.append_nil]
      exact run_cons (Or.inr (Or.inr hrest))
  | cons c text ih =>
      have hstep : run ⟨result, sb, true⟩ (CsvField.escape (c :: text) ++ '"' :: rest) =
          run ⟨result, sb ++ [c], true⟩ (CsvField.escape text ++ '"' :: rest) := by
        by_cases hquote : c = '"'
        · subst hquote
          rfl
        · have hescape : CsvField.escape (c :: text) = c :: CsvField.escape text := by
            simp [CsvField.escape, hquote]
          rw [hescape, List.cons_append, run_cons (Or.inl hquote)]
          simp [step, hquote, append]
      rw [hstep, ih, List.append_assoc, List.singleton_append]

/-- A written field that ends where no quote follows is read back. -/
theorem run_written (result : List String) (field : CsvField) {rest : List Char}
    (hrest : rest.head? ≠ some '"') :
    run ⟨result, [], false⟩ (field.written ++ rest) =
      run ⟨result, field.text.toList, false⟩ rest := by
  cases field with
  | plain text valid => exact run_plain result [] valid rest
  | quoted text =>
      show run ⟨result, [], false⟩ ('"' :: (CsvField.escape text.toList ++ ['"']) ++ rest) = _
      rw [List.cons_append, List.append_assoc, List.singleton_append,
        run_cons (Or.inr (Or.inl rfl))]
      exact run_escape result [] text.toList hrest

theorem run_fields (result : List String) (sb : List Char) (fields : List CsvField) :
    (run ⟨result, sb, false⟩ (fields.flatMap fun next => ',' :: next.written)).endField.result =
      result ++ String.ofList sb :: fields.map CsvField.text := by
  induction fields generalizing result sb with
  | nil => rfl
  | cons field fields ih =>
      have hrest : (fields.flatMap fun next => ',' :: next.written).head? ≠ some '"' := by
        cases fields with
        | nil => simp
        | cons next fields => simp
      rw [List.flatMap_cons, List.cons_append, run_comma, run_written _ field hrest, ih,
        String.ofList_toList, List.append_assoc, List.singleton_append, List.map_cons]

end CsvScan

/-- Parsing a line gives back the fields it was written from. -/
theorem parseCsvLine_csvLine (field : CsvField) (fields : List CsvField) :
    parseCsvLine (csvLine field fields) = (field :: fields).map CsvField.text := by
  have hrest : (fields.flatMap fun next => ',' :: next.written).head? ≠ some '"' := by
    cases fields with
    | nil => simp
    | cons next fields => simp
  rw [parseCsvLine, csvLine, String.toList_ofList]
  show (CsvScan.run ⟨[], [], false⟩ _).endField.result = _
  rw [CsvScan.run_written [] field hrest, CsvScan.run_fields, String.ofList_toList]
  rfl

example : parseCsvLine "\"a,\"\"b\"\"\",thrpt,," = ["a,\"b\"", "thrpt", "", ""] := by decide

end Colata.BenchmarkCompare
