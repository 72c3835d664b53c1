/-
A call of `set` from end to end. The call is written with a path in apostrophes and the compact text of a
value. It is found in its text as the one command, nothing is skipped, its two arguments are typed as the
path and the value, and where the value can be written along the path, the outcome of the run is the state
with that tree under the root key.

What is asked of the path and of the strings in the value keeps the search for the end of the call in step
with the string it is in: it takes any mark for the end of a string, unless a backslash stands before it.
-/
import StateScript.Proofs.Extraction.Neutral
import StateScript.Proofs.Operand.RoundTrip
import StateScript.Proofs.Run.Step

namespace StateScript

open Text

/-! ## The call -/

/-- The call that writes a value at a path. -/
def setCall (path : String) (value : Json) : List Char :=
  "_.set('".toList ++ (path.toList ++ ("', ".toList ++ (value.compact ++ ");".toList)))

namespace Command

/-- The command that writes a value at a path. -/
def setting (path : String) (value : Json) : Command := ⟨.set, ["'" ++ path ++ "'", String.ofList value.compact]⟩

theorem toList_apostrophes (text : String) : ("'" ++ text ++ "'").toList = '\'' :: (text.toList ++ ['\'']) := by
  rw [String.toList_append, String.toList_append]
  rfl

/-- The call is the command as it is printed. -/
theorem written_setting (path : String) (value : Json) : (setting path value).written = setCall path value := by
  have hinside : (setting path value).inside = '\'' :: (path.toList ++ ('\'' :: ',' :: ' ' :: value.compact)) := by
    rw [inside, setting, List.map_cons, List.map_singleton, toList_apostrophes, String.toList_ofList,
      List.intercalate_cons_cons, List.intercalate_singleton]
    simp only [List.cons_append, List.append_assoc, List.nil_append]
  have hopening : "_.set('".toList = Verb.set.opening ++ ['\''] := by decide
  have hcomma : "', ".toList = ['\'', ',', ' '] := by decide
  have hend : ");".toList = [')', ';'] := by decide
  have hverb : (setting path value).verb = .set := rfl
  rw [written_eq, hinside, hverb]
  unfold setCall
  rw [hopening, hcomma, hend]
  simp only [List.cons_append, List.append_assoc, List.nil_append]

variable {text : String} {path : Path} {value : Json}

/-! ## Its arguments -/

/-- A text without marks and backslashes, in apostrophes. -/
theorem neutral_apostrophes {inner : List Char} (h : ∀ c ∈ inner, isQuote c = false ∧ c ≠ '\\') :
    Neutral 0 ('\'' :: (inner ++ ['\''])) := by
  refine .quoted (by decide) (.chars (by decide) h) ?_
  intro hlast
  exact (h '\\' (List.mem_of_getLast? hlast)).2 rfl

theorem trim_apostrophes (inner : List Char) : trim ('\'' :: (inner ++ ['\''])) = '\'' :: (inner ++ ['\'']) := by
  refine trim_eq_self ?_ ?_
  · rintro c ⟨⟩
    decide
  · intro c hc
    rw [← List.cons_append, List.getLast?_concat] at hc
    cases hc
    decide

/-- The path is read from the argument as it was written. -/
theorem path?_setting (hpath : Path.ofText? text = some path) : (setting text value).path? = some path := by
  rw [path?, setting, List.head?_cons, Option.bind_some, toList_apostrophes, unquote, trim_apostrophes,
    stripQuotes_pair (by decide), String.ofList_toList]
  exact hpath

/-- The value is read from the argument as it was written. -/
theorem operand_setting (hinteger : value.regular Number.isInteger = true) (hdepth : value.depth ≤ 127) :
    value.compact ≠ [] ∧ trim value.compact = value.compact ∧ Operand.ofText value.compact = .value value := by
  have hvalue := Json.compact_spells Json.integer_printsAs hinteger hdepth
  have hread := Json.read?_of_holds hvalue.holds
  refine ⟨?_, trim_eq_self (fun c hc => (hvalue.head? c hc).1) hvalue.getLast?,
    Operand.ofText_of_value hvalue (.inl hread)⟩
  intro hempty
  have hnone : Json.read? [] = none := by decide +kernel
  rw [hempty, hnone] at hread
  cases hread

/-- The call is found as the command. -/
theorem readable_setting (hplain : ∀ c ∈ text.toList, isQuote c = false ∧ c ≠ '\\')
    (hinteger : value.regular Number.isInteger = true) (hdepth : value.depth ≤ 127)
    (hstrings : value.eachString Json.isQuotable = true) : (setting text value).Readable := by
  obtain ⟨hne, htrim, -⟩ := operand_setting hinteger hdepth
  refine readable_of_neutral ?_ ?_
  · simp only [setting, List.mem_cons, List.not_mem_nil, or_false]
    rintro a (rfl | rfl)
    · rw [toList_apostrophes]
      exact ⟨neutral_apostrophes hplain, trim_apostrophes _⟩
    · rw [String.toList_ofList]
      exact ⟨Json.neutral_compact hinteger hstrings, htrim⟩
  · intro hlast
    have hcompact : String.ofList value.compact = "" := Option.some.inj hlast
    exact hne (String.ofList_eq_empty_iff.1 hcompact)

/-! ## Its effect -/

/-- The command writes the value, if it can be written. -/
theorem onState_setting (hpath : Path.ofText? text = some path) (hinteger : value.regular Number.isInteger = true)
    (hdepth : value.depth ≤ 127) {rootKey : String} {members : List (String × Json)} {tree : Json}
    (hwrite : (rootTree rootKey members).write path.segments value = ⟨tree, none⟩) :
    (setting text value).onState rootKey (.object members) =
      ⟨.object (Members.put rootKey tree members), .applied⟩ := by
  obtain ⟨-, -, hoperand⟩ := operand_setting hinteger hdepth
  have heffect : (setting text value).onRoot path (rootTree rootKey members) = ⟨tree, .applied⟩ := by
    simp only [onRoot, setting, List.drop_one, List.tail_cons, List.map_singleton, String.toList_ofList, hoperand,
      Path.set, Path.write, hwrite]
    rfl
  rw [onState_object (path?_setting hpath), heffect]

end Command

/-- A call that writes a value at a path is found as one command of two arguments, and no call is skipped.
Where the value can be written at the path in the tree under the root key, this is the outcome of the run,
and the state is otherwise as it was. -/
theorem Run.ofText_setCall {text : String} {path : Path} {value : Json} (hpath : Path.ofText? text = some path)
    (hplain : ∀ c ∈ text.toList, isQuote c = false ∧ c ≠ '\\') (hinteger : value.regular Number.isInteger = true)
    (hdepth : value.depth ≤ 127) (hstrings : value.eachString Json.isQuotable = true) :
    Extraction.ofText (setCall text value) =
        ⟨[⟨.set, ["'" ++ text ++ "'", String.ofList value.compact]⟩], []⟩ ∧
      ∀ (rootKey : String) (members : List (String × Json)) (tree : Json),
        (rootTree rootKey members).write path.segments value = ⟨tree, none⟩ →
        (Run.ofText rootKey (setCall text value) (.object members)).outcome =
          .changed (.object (Members.put rootKey tree members)) := by
  have hfound : Extraction.ofText (setCall text value) = ⟨[.setting text value], []⟩ := by
    rw [← Command.written_setting]
    exact Extraction.ofText_written (Command.readable_setting hplain hinteger hdepth hstrings)
  refine ⟨hfound, ?_⟩
  intro rootKey members tree hwrite
  rw [Run.ofText, hfound]
  simp only [ofCommands, Command.onState_setting hpath hinteger hdepth hwrite]
  rfl

/-- The path and the strings have what would end an argument or the call. -/
theorem Run.ofText_setCall_nested :
    let text := "bag[0].a (b), c;"
    let path : Path := ⟨text, ["bag", "0", "a (b), c;"], by decide⟩
    let value : Json :=
      .object [("\x7d, \"(", .array [.string "x) \\ \"];\" y", .number (.int (-3) (by decide)), .null])]
    let tree : Json := .object [("bag", .array [.object [("a (b), c;", value)]])]
    Path.ofText? text = some path ∧ (∀ c ∈ text.toList, isQuote c = false ∧ c ≠ '\\') ∧
      value.regular Number.isInteger = true ∧ value.depth ≤ 127 ∧ value.eachString Json.isQuotable = true ∧
      (Run.ofText "statData" (setCall text value) (.object [("n", .null)])).outcome =
        .changed (.object [("n", .null), ("statData", tree)]) := by
  intro text path value tree
  have hpath : Path.ofText? text = some path := by decide +kernel
  have hplain : ∀ c ∈ text.toList, isQuote c = false ∧ c ≠ '\\' := by simp [text, isQuote]
  have hinteger : value.regular Number.isInteger = true := by decide
  have hdepth : value.depth ≤ 127 := by decide
  have hstrings : value.eachString Json.isQuotable = true := by decide
  have hwrite : (rootTree "statData" [("n", .null)]).write path.segments value = ⟨tree, none⟩ := rfl
  exact ⟨hpath, hplain, hinteger, hdepth, hstrings,
    (Run.ofText_setCall hpath hplain hinteger hdepth hstrings).2 "statData" [("n", .null)] tree hwrite⟩

end StateScript
