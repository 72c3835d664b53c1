/-
Every call site is accounted for once. The sites that the search finds stand one behind the other in
the text. Each opening in the text is one of them, or it lies between the parentheses of just one of
them whose call is closed; so no opening is found twice, and none is lost.

An opening has its underscore at its front only and no closing parenthesis in it. So behind a site it
cannot begin inside the site's own opening, nor run over the parenthesis that closes the call, and what
the search passes over with a site lies wholly in the call. The sites are told apart by how far the
search has come with each: a later one starts where an earlier one has stopped, or behind.
-/
import StateScript.Proofs.Extraction.Search
import Mathlib.Data.List.Pairwise
import Mathlib.Logic.Basic

namespace StateScript

open Text

/-! ## Openings behind a piece of text -/

namespace Verb

theorem opening_eq_cons (verb : Verb) : verb.opening = '_' :: verb.opening.tail := rfl

theorem byteCount_opening_pos (verb : Verb) : 0 < byteCount verb.opening := by cases verb <;> decide

theorem close_not_mem_opening (verb : Verb) : ')' ∉ verb.opening := by cases verb <;> decide

/-- An opening begins behind a character that is no underscore. -/
theorem behind_char {verb : Verb} {c : Char} (hc : c ≠ '_') {front rest : List Char}
    (h : front ++ verb.opening <+: c :: rest) : ∃ more, front = c :: more ∧ more ++ verb.opening <+: rest := by
  cases front with
  | nil =>
    rw [List.nil_append, opening_eq_cons, List.cons_prefix_cons] at h
    exact absurd h.1.symm hc
  | cons d more =>
    obtain ⟨rfl, hmore⟩ := List.cons_prefix_cons.1 h
    exact ⟨more, rfl, hmore⟩

/-- An opening in a text that begins with one is this one, or begins behind it. -/
theorem behind_opening {verb other : Verb} {front rest : List Char}
    (h : front ++ other.opening <+: verb.opening ++ rest) :
    front = [] ∧ other = verb ∨ ∃ more, front = verb.opening ++ more ∧ more ++ other.opening <+: rest := by
  cases front with
  | nil => exact .inl ⟨rfl, Verb.eq_of_opening_isPrefix h (List.prefix_append _ _)⟩
  | cons d front =>
    right
    obtain ⟨last, htext⟩ := h
    rw [List.append_assoc] at htext
    rcases List.append_eq_append_iff.1 htext with ⟨more, hopening, hrest⟩ | ⟨more, hfront, hrest⟩
    · -- what is left of the first opening would begin with the second one's underscore
      rcases more with _ | ⟨c, more⟩
      · rw [List.append_nil] at hopening
        exact ⟨[], by rw [hopening, List.append_nil], last, hrest⟩
      · rw [opening_eq_cons, List.cons_append, List.cons_append, List.cons.injEq] at hrest
        obtain ⟨rfl, -⟩ := hrest
        refine absurd ?_ verb.not_mem_tail_opening
        rw [hopening]
        exact List.mem_append_right _ List.mem_cons_self
    · exact ⟨more, hfront, last, by rw [List.append_assoc, hrest]⟩

/-- An opening in a text with a closing parenthesis lies before or behind it. -/
theorem behind_close {verb : Verb} {front body rest : List Char}
    (h : front ++ verb.opening <+: body ++ ')' :: rest) :
    front ++ verb.opening <+: body ∨ ∃ more, front = body ++ ')' :: more ∧ more ++ verb.opening <+: rest := by
  induction body generalizing front with
  | nil =>
    obtain ⟨more, rfl, hmore⟩ := behind_char (by decide) h
    exact .inr ⟨more, rfl, hmore⟩
  | cons c body ih =>
    cases front with
    | nil => exact .inl ((isPrefix_append_cons_iff verb.close_not_mem_opening).1 h)
    | cons d front =>
      obtain ⟨rfl, hbehind⟩ := List.cons_prefix_cons.1 h
      rcases ih hbehind with hbody | ⟨more, rfl, hmore⟩
      · exact .inl (List.cons_prefix_cons.2 ⟨rfl, hbody⟩)
      · exact .inr ⟨more, rfl, hmore⟩

end Verb

/-! ## Where a site stands -/

/-- The text between the parentheses of a call, if it is closed. -/
def Closing.body? : Closing → Option (List Char)
  | never => none
  | bare body => some body
  | semicolon body => some body

namespace CallSite

/-- The opening of the site's verb stands in the text behind `front`, where the site starts. -/
def IsAt (site : CallSite) (front text : List Char) : Prop :=
  front ++ site.verb.opening <+: text ∧ site.start = Position.start.past front

/-- The piece of the text behind `front` lies between the opening parenthesis of the site's call and the
parenthesis that closes it. -/
def Encloses (site : CallSite) (front piece text : List Char) : Prop :=
  ∃ before inner behind, site.IsAt before text ∧ front = before ++ (site.verb.opening ++ inner) ∧
    site.closing.body? = some (inner ++ (piece ++ behind)) ∧ CallScan.IsBody (inner ++ (piece ++ behind)) ∧
    front ++ (piece ++ (behind ++ [')'])) <+: text

/-- The offset that the search has come to with the site, a semicolon aside. -/
def stop (site : CallSite) : Nat :=
  site.start.offset + byteCount site.verb.opening +
    match site.closing.body? with
    | none => 0
    | some body => byteCount body + 1

theorem offset_lt_stop (site : CallSite) : site.start.offset < site.stop := by
  have := site.verb.byteCount_opening_pos
  unfold stop
  omega

theorem IsAt.offset_eq {site : CallSite} {front text : List Char} (h : site.IsAt front text) :
    site.start.offset = byteCount front := by
  rw [h.2, Position.offset_past]
  exact Nat.zero_add _

/-- What a site encloses starts behind it and before its stop. -/
theorem Encloses.offset_lt {site : CallSite} {front piece text : List Char} (h : site.Encloses front piece text) :
    site.start.offset < byteCount front ∧ byteCount front < site.stop := by
  obtain ⟨before, inner, behind, hat, rfl, hbody, -, -⟩ := h
  have hstart := hat.offset_eq
  have hopening := site.verb.byteCount_opening_pos
  simp only [stop, hbody, byteCount_append, hstart]
  omega

/-- The sites are one, or one has stopped before the other starts. -/
def Clear (a b : CallSite) : Prop := a = b ∨ a.stop ≤ b.start.offset ∨ b.stop ≤ a.start.offset

instance : Std.Symm Clear := ⟨fun _ _ h => h.imp Eq.symm Or.symm⟩

end CallSite

/-! ## The order of the sites -/

namespace Finds

variable {place : Position} {text : List Char} {sites : List CallSite}

theorem le_offset (h : Finds place text sites) : ∀ site ∈ sites, place.offset ≤ site.start.offset := by
  induction h with
  | done =>
    intro site hsite
    cases hsite
  | @pass place c rest sites _ _ ih =>
    intro site hsite
    have hrest := ih site hsite
    have hplace : (place.past [c]).offset = place.offset + byteCount [c] := Position.offset_past place [c]
    exact Nat.le_trans (Nat.le.intro hplace.symm) hrest
  | never _ _ ih | bare _ _ _ ih | semicolon _ _ ih =>
    intro site hsite
    rcases List.mem_cons.1 hsite with rfl | hsite
    · exact Nat.le_refl _
    · have hrest := ih site hsite
      rw [Position.offset_past] at hrest
      exact Nat.le_trans (Nat.le_add_right _ _) hrest

/-- A later site starts where an earlier one has stopped, or behind. -/
theorem pairwise_stop_le (h : Finds place text sites) : sites.Pairwise fun a b => a.stop ≤ b.start.offset := by
  induction h with
  | done => exact .nil
  | pass _ _ ih => exact ih
  | never _ hrest ih =>
    refine ih.cons fun site hsite => ?_
    have hoffset := hrest.le_offset site hsite
    rw [Position.offset_past] at hoffset
    exact hoffset
  | bare _ _ hrest ih | semicolon _ hrest ih =>
    refine ih.cons fun site hsite => ?_
    have hoffset := hrest.le_offset site hsite
    simp only [Position.offset_past, byteCount_append, byteCount_cons, byteCount_nil] at hoffset
    have hclose : (')').utf8Size = 1 := rfl
    simp only [CallSite.stop, Closing.body?]
    omega

/-- Of two sites that are found one has stopped before the other starts. -/
theorem clear (h : Finds place text sites) {a b : CallSite} (ha : a ∈ sites) (hb : b ∈ sites) : a.Clear b := by
  have hpairwise : sites.Pairwise CallSite.Clear := h.pairwise_stop_le.imp fun hab => .inr (.inl hab)
  exact hpairwise.forall_of_forall (fun _ _ => .inl rfl) ha hb

/-- No site that is found encloses what stands where another starts. -/
theorem not_encloses_of_isAt (h : Finds place text sites) {a b : CallSite} (ha : a ∈ sites) (hb : b ∈ sites)
    {front piece whole : List Char} (hat : a.IsAt front whole) : ¬ b.Encloses front piece whole := by
  intro hencloses
  have hoffset := hat.offset_eq
  have hstop := a.offset_lt_stop
  obtain ⟨hstart, hend⟩ := hencloses.offset_lt
  rcases h.clear ha hb with rfl | hab | hba <;> omega

/-- At most one site that is found encloses what stands at a place. -/
theorem eq_of_encloses (h : Finds place text sites) {a b : CallSite} (ha : a ∈ sites) (hb : b ∈ sites)
    {front piece whole : List Char} (hea : a.Encloses front piece whole) (heb : b.Encloses front piece whole) :
    a = b := by
  obtain ⟨hastart, haend⟩ := hea.offset_lt
  obtain ⟨hbstart, hbend⟩ := heb.offset_lt
  rcases h.clear ha hb with heq | hab | hba
  · exact heq
  · omega
  · omega

end Finds

/-! ## The account -/

/-- The opening of the verb behind `front` is one of the sites, or one of them encloses it. -/
def Accounted (sites : List CallSite) (verb : Verb) (front text : List Char) : Prop :=
  (∃ site ∈ sites, site.verb = verb ∧ site.IsAt front text) ∨
    ∃ site ∈ sites, site.Encloses front verb.opening text

theorem Accounted.cons {sites : List CallSite} {verb : Verb} {front text : List Char}
    (h : Accounted sites verb front text) (site : CallSite) : Accounted (site :: sites) verb front text :=
  h.imp (fun ⟨other, hother, h⟩ => ⟨other, List.mem_cons_of_mem _ hother, h⟩)
    fun ⟨other, hother, h⟩ => ⟨other, List.mem_cons_of_mem _ hother, h⟩

namespace CallSite

theorem isAt_passed {passed rest text : List Char} {verb : Verb} (htext : text = passed ++ (verb.opening ++ rest))
    (closing : Closing) : (⟨verb, Position.start.past passed, closing⟩ : CallSite).IsAt passed text :=
  ⟨by rw [htext, ← List.append_assoc]; exact List.prefix_append _ _, rfl⟩

/-- An opening in the text between the parentheses of a call is enclosed by the site. -/
theorem encloses_of_isPrefix {passed body rest text inner : List Char} {verb other : Verb} {closing : Closing}
    (htext : text = passed ++ (verb.opening ++ (body ++ ')' :: rest))) (hbody : CallScan.IsBody body)
    (hclosing : closing.body? = some body) (h : inner ++ other.opening <+: body) :
    (⟨verb, Position.start.past passed, closing⟩ : CallSite).Encloses (passed ++ (verb.opening ++ inner))
      other.opening text := by
  obtain ⟨behind, rfl⟩ := h
  rw [List.append_assoc] at hclosing hbody htext
  refine ⟨passed, inner, behind, isAt_passed htext closing, rfl, hclosing, hbody, rest, ?_⟩
  rw [htext]
  simp only [List.append_assoc, List.cons_append, List.nil_append]

/-- An opening in a text that begins with a closed call is accounted for by its site, or begins behind the
parenthesis that closes the call. -/
theorem accounted_or_behind {sites : List CallSite} {passed front body rest text : List Char} {verb other : Verb}
    (closing : Closing) (htext : text = passed ++ (other.opening ++ (body ++ ')' :: rest)))
    (hbody : CallScan.IsBody body) (hclosing : closing.body? = some body)
    (h : front ++ verb.opening <+: other.opening ++ (body ++ ')' :: rest)) :
    Accounted (⟨other, Position.start.past passed, closing⟩ :: sites) verb (passed ++ front) text ∨
      ∃ more, front = other.opening ++ (body ++ ')' :: more) ∧ more ++ verb.opening <+: rest := by
  rcases Verb.behind_opening h with ⟨rfl, rfl⟩ | ⟨inner, rfl, hinner⟩
  · rw [List.append_nil]
    exact .inl (.inl ⟨_, List.mem_cons_self, rfl, isAt_passed htext closing⟩)
  · rcases Verb.behind_close hinner with hinside | ⟨more, rfl, hbehind⟩
    · exact .inl (.inr ⟨_, List.mem_cons_self, encloses_of_isPrefix htext hbody hclosing hinside⟩)
    · exact .inr ⟨more, rfl, hbehind⟩

end CallSite

namespace Finds

variable {place : Position} {rest : List Char} {sites : List CallSite}

theorem past_passed {passed : List Char} (h : place = Position.start.past passed) (piece : List Char) :
    place.past piece = Position.start.past (passed ++ piece) := by
  rw [h, Position.past_append]

/-- Every site found is an opening in the text. -/
theorem exists_isAt (h : Finds place rest sites) {text : List Char} : ∀ passed : List Char,
    place = Position.start.past passed → text = passed ++ rest → ∀ site ∈ sites, ∃ front, site.IsAt front text := by
  induction h with
  | done =>
    intro passed _ _ site hsite
    cases hsite
  | pass _ _ ih =>
    intro passed hplace htext
    exact ih _ (past_passed hplace [_]) (by rw [htext, List.append_assoc]; rfl)
  | never _ _ ih =>
    intro passed hplace htext site hsite
    rcases List.mem_cons.1 hsite with rfl | hsite
    · exact ⟨passed, hplace ▸ CallSite.isAt_passed htext _⟩
    · exact ih _ (past_passed hplace _) (by rw [htext, List.append_assoc]) site hsite
  | bare _ _ _ ih | semicolon _ _ ih =>
    intro passed hplace htext site hsite
    rcases List.mem_cons.1 hsite with rfl | hsite
    · exact ⟨passed, hplace ▸ CallSite.isAt_passed htext _⟩
    · refine ih _ (past_passed hplace _) ?_ site hsite
      rw [htext]
      simp only [List.append_assoc, List.cons_append, List.nil_append]

/-- Every opening at the place of the search or behind it is accounted for. -/
theorem accounted (h : Finds place rest sites) {text : List Char} {verb : Verb} : ∀ passed front : List Char,
    place = Position.start.past passed → text = passed ++ rest → front ++ verb.opening <+: rest →
    Accounted sites verb (passed ++ front) text := by
  induction h with
  | done =>
    intro passed front _ _ h
    rw [List.prefix_nil, Verb.opening_eq_cons] at h
    simp at h
  | @pass place c rest sites hopening _ ih =>
    intro passed front hplace htext h
    rcases front with _ | ⟨d, front⟩
    · exact absurd h (hopening verb)
    · obtain ⟨rfl, hbehind⟩ := List.cons_prefix_cons.1 h
      rw [List.append_cons]
      exact ih _ _ (past_passed hplace [d]) (by rw [htext, List.append_assoc]; rfl) hbehind
  | never _ _ ih =>
    intro passed front hplace htext h
    rcases Verb.behind_opening h with ⟨rfl, rfl⟩ | ⟨more, rfl, hbehind⟩
    · rw [List.append_nil]
      exact .inl ⟨_, List.mem_cons_self, rfl, hplace ▸ CallSite.isAt_passed htext _⟩
    · rw [← List.append_assoc]
      exact (ih _ _ (past_passed hplace _) (by rw [htext, List.append_assoc]) hbehind).cons _
  | @bare place other body rest sites hbody _ _ ih =>
    intro passed front hplace htext h
    rcases CallSite.accounted_or_behind (.bare body) htext hbody rfl h with haccounted | ⟨more, rfl, hbehind⟩
    · exact hplace ▸ haccounted
    · have hrest : text = passed ++ (other.opening ++ (body ++ [')'])) ++ rest := by simp [htext]
      have hfront : passed ++ (other.opening ++ (body ++ ')' :: more)) =
          passed ++ (other.opening ++ (body ++ [')'])) ++ more := by simp
      rw [hfront]
      exact (ih _ _ (past_passed hplace _) hrest hbehind).cons _
  | @semicolon place other body rest sites hbody _ ih =>
    intro passed front hplace htext h
    rcases CallSite.accounted_or_behind (.semicolon body) htext hbody rfl h with haccounted | ⟨more, rfl, hbehind⟩
    · exact hplace ▸ haccounted
    · obtain ⟨more, rfl, hlater⟩ := Verb.behind_char (by decide) hbehind
      have hrest : text = passed ++ (other.opening ++ (body ++ [')', ';'])) ++ rest := by simp [htext]
      have hfront : passed ++ (other.opening ++ (body ++ ')' :: ';' :: more)) =
          passed ++ (other.opening ++ (body ++ [')', ';'])) ++ more := by simp
      rw [hfront]
      exact (ih _ _ (past_passed hplace _) hrest hlater).cons _

end Finds

/-! ## Every opening once -/

/-- A site gives a command, or it is skipped. -/
theorem CallSite.command?_or_skipped? (site : CallSite) :
    (∃ command, site.command? = some command ∧ site.skipped? = none) ∨
      ∃ reason, site.command? = none ∧ site.skipped? = some ⟨site.verb, reason, site.start⟩ := by
  unfold command? skipped?
  rcases site.result with reason | command
  · exact .inr ⟨reason, rfl, rfl⟩
  · exact .inl ⟨command, rfl, rfl⟩

/-- A skipped call stands at an opening of its verb. -/
theorem exists_opening_of_mem_skipped {text : List Char} {call : SkippedCall}
    (h : call ∈ (Extraction.ofText text).skipped) :
    ∃ front, front ++ call.verb.opening <+: text ∧ call.start.offset = byteCount front := by
  obtain ⟨site, hsite, hskipped⟩ := List.mem_filterMap.1 h
  obtain ⟨front, hfront⟩ := (finds_callSites Position.start text).exists_isAt [] rfl rfl site hsite
  rcases site.command?_or_skipped? with ⟨_, -, hnone⟩ | ⟨reason, -, hsome⟩
  · rw [hnone] at hskipped
    cases hskipped
  · rw [hsome] at hskipped
    cases hskipped
    exact ⟨front, hfront.1, hfront.offset_eq⟩

/-- The search ends, its sites stand in the text one behind the other, and each gives a command or is
skipped; an opening in the text is one of the sites, or just one of them encloses it, and not both; and
each skipped call stands at an opening of its verb. -/
theorem callSites_account (text : List Char) :
    let sites := callSites Position.start text
    (∀ found, Finds Position.start text found ↔ found = sites) ∧
    sites.Pairwise (fun a b => a.start.offset < b.start.offset) ∧
    (∀ site ∈ sites, (∃ front, site.IsAt front text) ∧
      ((∃ command, site.command? = some command ∧ site.skipped? = none) ∨
        ∃ reason, site.command? = none ∧ site.skipped? = some ⟨site.verb, reason, site.start⟩)) ∧
    (∀ verb front, front ++ verb.opening <+: text →
      (∃ site ∈ sites, site.verb = verb ∧ site.IsAt front text) ∧
          (∀ site ∈ sites, ¬ site.Encloses front verb.opening text) ∨
        (∀ site ∈ sites, ¬ site.IsAt front text) ∧
          ∃! site, site ∈ sites ∧ site.Encloses front verb.opening text) ∧
    Extraction.ofText text = ⟨sites.filterMap (·.command?), sites.filterMap (·.skipped?)⟩ ∧
    ∀ call ∈ (Extraction.ofText text).skipped, ∃ front, front ++ call.verb.opening <+: text ∧
      call.start.offset = byteCount front := by
  intro sites
  have hfinds : Finds Position.start text sites := finds_callSites Position.start text
  refine ⟨fun found => finds_iff, ?_, ?_, ?_, rfl, fun call => exists_opening_of_mem_skipped⟩
  · exact hfinds.pairwise_stop_le.imp fun hab => Nat.lt_of_lt_of_le (CallSite.offset_lt_stop _) hab
  · exact fun site hsite => ⟨hfinds.exists_isAt [] rfl rfl site hsite, site.command?_or_skipped?⟩
  · intro verb front h
    rcases hfinds.accounted [] front rfl rfl h with ⟨site, hsite, hverb, hat⟩ | ⟨site, hsite, hencloses⟩
    · left
      exact ⟨⟨site, hsite, hverb, hat⟩, fun other hother => hfinds.not_encloses_of_isAt hsite hother hat⟩
    · right
      refine ⟨fun other hother hat => hfinds.not_encloses_of_isAt hother hsite hat hencloses, site,
        ⟨hsite, hencloses⟩, ?_⟩
      rintro other ⟨hother, hothers⟩
      exact hfinds.eq_of_encloses hother hsite hothers hencloses

end StateScript
