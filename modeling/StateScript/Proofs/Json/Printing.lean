/-
The printed text of a value is spelled in the grammar, in every layout that writes blanks between the
parts: a string by the escapes that the printer uses, an integer by its digits. What there is to ask of
the value is that no key repeats in an object, since of two members under one key the reader keeps one.

Numbers are left open: where the text of every number of a kind is a numeral of a kind, so are the
numerals in the text of a value. Integers give numerals, and signed integers signed ones.
-/
import StateScript.Json.Printer
import StateScript.Proofs.Json.Grammar
import Mathlib.Tactic.SplitIfs
import Mathlib.Tactic.ByContra

namespace StateScript

open Text

namespace Json

mutual

/-- Every number in the value passes, and no object has a key twice. -/
def regular (p : Number → Bool) : Json → Bool
  | number n => p n
  | array items => regularItems p items
  | object members => decide (Members.keys members).Nodup && regularMembers p members
  | _ => true
termination_by structural v => v

/-- The items are all regular. -/
def regularItems (p : Number → Bool) : List Json → Bool
  | [] => true
  | v :: more => v.regular p && regularItems p more
termination_by structural vs => vs

/-- The values of the members are all regular. -/
def regularMembers (p : Number → Bool) : List (String × Json) → Bool
  | [] => true
  | (_, v) :: more => v.regular p && regularMembers p more
termination_by structural ms => ms

end

theorem regularItems_iff {p : Number → Bool} {items : List Json} :
    regularItems p items = true ↔ ∀ v ∈ items, v.regular p = true := by
  induction items with
  | nil => simp [regularItems]
  | cons v more ih => simp [regularItems, ih]

theorem regularMembers_iff {p : Number → Bool} {members : List (String × Json)} :
    regularMembers p members = true ↔ ∀ m ∈ members, m.2.regular p = true := by
  induction members with
  | nil => simp [regularMembers]
  | cons m more ih => simp [regularMembers, ih]

/-- The layout writes blanks between the parts, also behind a colon. -/
structure Layout.IsBlank (layout : Layout) : Prop where
  gap : ∀ level, Grammar.Blank (layout.gap level)
  colon : ∃ behind, layout.colon = ':' :: behind ∧ Grammar.Blank behind

end Json

/-- The number is an integer. -/
def Number.isInteger : Number → Bool
  | int _ _ => true
  | float _ => false

/-- The number is a signed integer of 64 bits. -/
def Number.isSigned (n : Number) : Bool := n.signed?.isSome

namespace Json

open Grammar

/-! ## Strings -/

/-- A control character is printed by its number. -/
theorem ofHex?_control : ∀ n < 32, ofHex? ['0', '0', hexChar (n / 16), hexChar (n % 16)] = some n := by decide

/-- A character is printed by an escape, or as it is where it may stand so in a string. -/
theorem escape_cases (c : Char) :
    (∃ esc, Escape c esc ∧ escape c = '\\' :: esc) ∨ c ≠ '"' ∧ c ≠ '\\' ∧ ¬ c.toNat < 32 ∧ escape c = [c] := by
  unfold escape
  split_ifs with hquote hback hn hr ht hb hf hcontrol
  · subst hquote
    exact .inl ⟨['"'], .short (by decide), rfl⟩
  · subst hback
    exact .inl ⟨['\\'], .short (by decide), rfl⟩
  · subst hn
    exact .inl ⟨['n'], .short (by decide), rfl⟩
  · subst hr
    exact .inl ⟨['r'], .short (by decide), rfl⟩
  · subst ht
    exact .inl ⟨['t'], .short (by decide), rfl⟩
  · obtain rfl : c = '\x08' := Char.toNat_inj.1 hb
    exact .inl ⟨['b'], .short (by decide), rfl⟩
  · obtain rfl : c = '\x0c' := Char.toNat_inj.1 hf
    exact .inl ⟨['f'], .short (by decide), rfl⟩
  · exact .inl ⟨_, .unit rfl (ofHex?_control c.toNat hcontrol), rfl⟩
  · exact .inr ⟨hquote, hback, hcontrol, rfl⟩

/-- The characters of a string as they are printed. -/
theorem body_flatMap_escape (chars : List Char) : Body chars (chars.flatMap escape) := by
  induction chars with
  | nil => exact .nil
  | cons c chars ih =>
    rw [List.flatMap_cons]
    rcases escape_cases c with ⟨esc, hesc, htext⟩ | ⟨hquote, hback, hcontrol, htext⟩
    · rw [htext]
      exact .escape hesc ih
    · rw [htext]
      exact .raw hquote hback hcontrol ih

/-! ## Integers -/

/-- The numeral that an integer is printed as. -/
def numeralOf (i : Int) : Reader.Numeral := ⟨decide (i < 0), toDigits i.natAbs, [], none⟩

theorem spells_intDigits (i : Int) : Spells (numeralOf i) (intDigits i) := by
  have hwhole : IsRun Char.isDigit (toDigits i.natAbs) := ⟨toDigits_ne_nil _, fun _ hc => isDigit_of_mem_toDigits hc⟩
  have hspells := @Spells.mk (numeralOf i) [] [] hwhole toDigits_of_head?_zero .absent .absent
  have htext : (numeralOf i).sign ++ (toDigits i.natAbs ++ ([] ++ [])) = intDigits i := by
    rw [List.append_nil, List.append_nil, intDigits, Reader.Numeral.sign, numeralOf]
    by_cases hi : i < 0
    · simp only [hi, decide_true, if_true, List.cons_append, List.nil_append]
    · simp only [hi, decide_false, if_false, List.nil_append, Bool.false_eq_true]
  rwa [← htext]

theorem integer_numeralOf (i : Int) : (numeralOf i).integer = i := by
  simp only [Reader.Numeral.integer, numeralOf, ofDigits_toDigits, decide_eq_true_eq]
  split <;> omega

theorem numeralOf_ne_negative_zero (i : Int) :
    ¬ ((numeralOf i).negative = true ∧ ofDigits (numeralOf i).whole = 0) := by
  simp only [numeralOf, ofDigits_toDigits, decide_eq_true_eq]
  omega

theorem number?_numeralOf {i : Int} (fits : FitsWord i) : (numeralOf i).number? = some (.int i fits) := by
  have hnumber := Reader.Numeral.number?_of_digits rfl rfl (numeralOf_ne_negative_zero i)
    ((integer_numeralOf i).symm ▸ fits)
  simpa only [integer_numeralOf] using hnumber

theorem isSigned_numeralOf {i : Int} (fits : FitsSigned i) : (numeralOf i).IsSigned :=
  ⟨rfl, rfl, numeralOf_ne_negative_zero i, (integer_numeralOf i).symm ▸ fits⟩

/-! ## Values -/

/-- Numbers of a kind are printed as numerals of a kind, which are read as them. -/
def PrintsAs (p : Number → Bool) (P : Reader.Numeral → Prop) : Prop :=
  ∀ n, p n = true → ∃ numeral, P numeral ∧ Spells numeral n.text ∧ numeral.number? = some n

theorem integer_printsAs : PrintsAs Number.isInteger Reader.AnyNumeral := by
  intro n hn
  cases n with
  | int i fits => exact ⟨numeralOf i, trivial, spells_intDigits i, number?_numeralOf fits⟩
  | float _ => cases hn

theorem signed_printsAs : PrintsAs Number.isSigned Reader.Numeral.IsSigned := by
  intro n hn
  cases n with
  | int i fits =>
    refine ⟨numeralOf i, isSigned_numeralOf ⟨fits.1, ?_⟩, spells_intDigits i, number?_numeralOf fits⟩
    by_contra hi
    rw [Number.isSigned, Number.signed?, if_neg hi] at hn
    cases hn
  | float _ => cases hn

/-! ## Containers -/

/-- Printed elements one behind the other, each with the gap of a level before it. -/
def Layout.list (layout : Layout) (level : Nat) : List (List Char) → List Char → List Char
  | [], rest => rest
  | [text], rest => layout.gap level ++ (text ++ rest)
  | text :: next :: more, rest => layout.gap level ++ (text ++ ',' :: layout.list level (next :: more) rest)

/-- The text of a member at a level. -/
def printMember (layout : Layout) (level : Nat) (m : String × Json) : List Char :=
  quote m.1 (layout.colon ++ print layout level m.2 [])

theorem print_eq_append (layout : Layout) (level : Nat) (v : Json) (rest : List Char) :
    print layout level v rest = print layout level v [] ++ rest := by
  rw [print_append, List.nil_append]

theorem printItems_eq (layout : Layout) (level : Nat) (items : List Json) (rest : List Char) :
    printItems layout level items rest = layout.list level (items.map (print layout level · [])) rest := by
  induction items with
  | nil => rfl
  | cons v more ih =>
    rw [printItems, print_eq_append]
    cases more with
    | nil => rfl
    | cons w more => exact congrArg (fun text => layout.gap level ++ (print layout level v [] ++ ',' :: text)) ih

theorem printMember_append (layout : Layout) (level : Nat) (key : String) (v : Json) (rest : List Char) :
    printMember layout level (key, v) ++ rest = quote key (layout.colon ++ print layout level v rest) := by
  rw [printMember, ← quote_append key (layout.colon ++ _),
    ← quote_append key (layout.colon ++ print layout level v rest), print_eq_append layout level v rest]
  simp only [List.append_assoc]

theorem printMembers_eq (layout : Layout) (level : Nat) (members : List (String × Json)) (rest : List Char) :
    printMembers layout level members rest = layout.list level (members.map (printMember layout level)) rest := by
  induction members with
  | nil => rfl
  | cons m more ih =>
    obtain ⟨key, v⟩ := m
    rw [printMembers, ← printMember_append]
    cases more with
    | nil => rfl
    | cons n more =>
      exact congrArg (fun text => layout.gap level ++ (printMember layout level (key, v) ++ ',' :: text)) ih

section

variable {α : Type} {R : α → List Char → Prop} {layout : Layout} {f : α → List Char}

theorem list_elements (hlayout : layout.IsBlank) (level : Nat) {rest : List Char} (hrest : Blank rest) :
    ∀ {as : List α}, as ≠ [] → (∀ a ∈ as, R a (f a)) → Elements R as (layout.list level (as.map f) rest)
  | [], hne, _ => absurd rfl hne
  | [a], _, hR => .last (hlayout.gap level) (hR a List.mem_cons_self) hrest
  | a :: b :: as, _, hR =>
    have hmore := list_elements hlayout level hrest (List.cons_ne_nil b as) fun c hc => hR c (List.mem_cons_of_mem a hc)
    @Elements.comma _ R a (b :: as) (layout.gap level) (f a) [] _ (hlayout.gap level) (hR a List.mem_cons_self)
      blank_nil hmore

/-- Elements are listed with the gap of the outer level before the closing bracket, unless there are none. -/
theorem list_listed (hlayout : layout.IsBlank) (level : Nat) {as : List α} (hR : ∀ a ∈ as, R a (f a)) :
    Listed R as (layout.list (level + 1) (as.map f) (if as.isEmpty then [] else layout.gap level)) := by
  cases as with
  | nil => exact .none blank_nil
  | cons a as => exact .some (list_elements hlayout (level + 1) (hlayout.gap level) (List.cons_ne_nil a as) hR)

end

/-! ## Values -/

theorem printMember_spells {R : Json → List Char → Prop} {layout : Layout} (hlayout : layout.IsBlank) {level : Nat}
    {m : String × Json} (h : R m.2 (print layout level m.2 [])) : Member R m (printMember layout level m) := by
  obtain ⟨key, v⟩ := m
  obtain ⟨behind, hcolon, hbehind⟩ := hlayout.colon
  have hmember := Member.mk (body_flatMap_escape key.toList) blank_nil hbehind h
  rw [String.ofList_toList] at hmember
  rw [printMember, quote, hcolon]
  exact hmember

/-- A printed container is spelled where its elements are. -/
theorem print_array {R : Json → List Char → Prop} {layout : Layout} (hlayout : layout.IsBlank) (level : Nat)
    {items : List Json} (h : ∀ v ∈ items, R v (print layout (level + 1) v [])) :
    Container R (.array items) (print layout level (.array items) []) := by
  have hlisted := Container.array (list_listed hlayout level h)
  rwa [← printItems_eq, printItems_append] at hlisted

theorem print_object {R : Json → List Char → Prop} {layout : Layout} (hlayout : layout.IsBlank) (level : Nat)
    {members : List (String × Json)} (hkeys : (Members.keys members).Nodup)
    (h : ∀ m ∈ members, R m.2 (print layout (level + 1) m.2 [])) :
    Container R (.object members) (print layout level (.object members) []) := by
  have hlisted := Container.object (list_listed hlayout level fun m hm => printMember_spells hlayout (h m hm))
  rwa [← printMembers_eq, printMembers_append, Members.ofList_of_nodup hkeys] at hlisted

section

variable {p : Number → Bool} {P : Reader.Numeral → Prop} {layout : Layout}

mutual

/-- A value is printed as the grammar spells it, with as many containers nested. -/
theorem print_spells (hnumbers : PrintsAs p P) (hlayout : layout.IsBlank) : ∀ (v : Json) (budget level : Nat),
    v.regular p = true → v.depth ≤ budget → Value P budget v (print layout level v [])
  | null, budget, _, _, _ => Scalar.null.value budget
  | bool true, budget, _, _, _ => Scalar.true.value budget
  | bool false, budget, _, _, _ => Scalar.false.value budget
  | number n, budget, _, hregular, _ => by
    obtain ⟨numeral, hP, hspells, hn⟩ := hnumbers n hregular
    rw [print, List.append_nil]
    exact (Scalar.number hP hspells hn).value budget
  | string s, budget, level, _, _ => by
    have hstring := @Scalar.string P _ _ (body_flatMap_escape s.toList)
    rw [String.ofList_toList] at hstring
    exact hstring.value budget
  | array items, 0, _, _, hdepth => absurd hdepth (Nat.not_succ_le_zero _)
  | array items, budget + 1, level, hregular, hdepth =>
    .inr (print_array hlayout level
      (printItems_spells hnumbers hlayout items budget (level + 1) hregular (Nat.le_of_succ_le_succ hdepth)))
  | object members, 0, _, _, hdepth => absurd hdepth (Nat.not_succ_le_zero _)
  | object members, budget + 1, level, hregular, hdepth => by
    -- the reader keeps one member for each key, which here is every member
    obtain ⟨hkeys, hmembers⟩ := (Bool.and_eq_true _ _).mp hregular
    exact .inr (print_object hlayout level (of_decide_eq_true hkeys)
      (printMembers_spells hnumbers hlayout members budget (level + 1) hmembers (Nat.le_of_succ_le_succ hdepth)))
termination_by structural v => v

theorem printItems_spells (hnumbers : PrintsAs p P) (hlayout : layout.IsBlank) :
    ∀ (items : List Json) (budget level : Nat), regularItems p items = true → depthOfItems items ≤ budget →
      ∀ v ∈ items, Value P budget v (print layout level v [])
  | [], _, _, _, _, _, hv => by cases hv
  | w :: more, budget, level, hregular, hdepth, v, hv => by
    obtain ⟨hw, hmore⟩ := (Bool.and_eq_true _ _).mp hregular
    obtain ⟨hwdepth, hmoredepth⟩ := Nat.max_le.1 hdepth
    rcases List.mem_cons.1 hv with hv | hv
    · rw [hv]
      exact print_spells hnumbers hlayout w budget level hw hwdepth
    · exact printItems_spells hnumbers hlayout more budget level hmore hmoredepth v hv
termination_by structural items => items

theorem printMembers_spells (hnumbers : PrintsAs p P) (hlayout : layout.IsBlank) :
    ∀ (members : List (String × Json)) (budget level : Nat), regularMembers p members = true →
      depthOfMembers members ≤ budget → ∀ m ∈ members, Value P budget m.2 (print layout level m.2 [])
  | [], _, _, _, _, _, hm => by cases hm
  | (key, w) :: more, budget, level, hregular, hdepth, m, hm => by
    obtain ⟨hw, hmore⟩ := (Bool.and_eq_true _ _).mp hregular
    obtain ⟨hwdepth, hmoredepth⟩ := Nat.max_le.1 hdepth
    rcases List.mem_cons.1 hm with hm | hm
    · rw [hm]
      exact print_spells hnumbers hlayout w budget level hw hwdepth
    · exact printMembers_spells hnumbers hlayout more budget level hmore hmoredepth m hm
termination_by structural members => members

end

end

theorem compact_isBlank : Layout.compact.IsBlank := ⟨fun _ => blank_nil, [], rfl, blank_nil⟩

/-- The compact text of a value is spelled by the grammar. -/
theorem compact_spells {p : Number → Bool} {P : Reader.Numeral → Prop} (hnumbers : PrintsAs p P) {v : Json}
    (hregular : v.regular p = true) {budget : Nat} (hdepth : v.depth ≤ budget) : Value P budget v v.compact :=
  print_spells hnumbers compact_isBlank v budget 0 hregular hdepth

end Json

end StateScript
