/-
Extraction line by line. Where every call of a text is closed in it, a line feed behind the text parts
it from all that follows: what is found in both together is what is found in each, and the calls skipped
in the second part are placed below the lines of the first.

No opening goes on over a line feed, and a line feed is no semicolon, so every step of the search in the
first part is the same step with the second part behind it. In the second part the search starts at the
front of a line, and what it finds depends on this place by a shift of lines and bytes alone.
-/
import StateScript.Proofs.Extraction.Search

namespace StateScript

open Text

/-! ## Places below other lines -/

namespace Text.Position

/-- The place with so many lines, of so many bytes, above the text that it is counted in. -/
def below (lines bytes : Nat) (place : Position) : Position :=
  ⟨place.line + lines, place.column, place.offset + bytes⟩

theorem advance_below (lines bytes : Nat) (place : Position) (c : Char) :
    (place.below lines bytes).advance c = (place.advance c).below lines bytes := by
  unfold advance below
  split <;> simp only [mk.injEq, true_and] <;> omega

theorem past_below (lines bytes : Nat) (place : Position) (piece : List Char) :
    (place.below lines bytes).past piece = (place.past piece).below lines bytes := by
  induction piece generalizing place with
  | nil => rfl
  | cons c piece ih =>
    show ((place.below lines bytes).advance c).past piece = _
    rw [advance_below, ih]
    rfl

theorem line_past (place : Position) (piece : List Char) :
    (place.past piece).line = place.line + piece.count '\n' := by
  induction piece generalizing place with
  | nil => rfl
  | cons c piece ih =>
    show ((place.advance c).past piece).line = _
    rw [ih, List.count_cons, advance]
    split
    · next hc =>
      simp only [hc, beq_self_eq_true, if_true]
      omega
    · next hc => simp [hc]

/-- Behind a text and a line feed a new line begins. -/
theorem past_line (text : List Char) :
    start.past (text ++ ['\n']) = start.below (1 + text.count '\n') (1 + byteCount text) := by
  have hline := line_past start text
  have hoffset := offset_past start text
  rw [past_append]
  show (start.past text).advance '\n' = _
  unfold advance below
  simp only [if_true, hline, hoffset, mk.injEq]
  refine ⟨by simp only [start]; omega, rfl, ?_⟩
  show start.offset + byteCount text + 1 = _
  omega

end Text.Position

/-- The site with so many lines, of so many bytes, above its text. -/
def CallSite.below (lines bytes : Nat) (site : CallSite) : CallSite :=
  { site with start := site.start.below lines bytes }

/-- The skipped call with so many lines, of so many bytes, above its text. -/
def SkippedCall.below (lines bytes : Nat) (call : SkippedCall) : SkippedCall :=
  { call with start := call.start.below lines bytes }

theorem CallSite.command?_below (lines bytes : Nat) (site : CallSite) :
    (site.below lines bytes).command? = site.command? := rfl

theorem CallSite.skipped?_below (lines bytes : Nat) (site : CallSite) :
    (site.below lines bytes).skipped? = site.skipped?.map (·.below lines bytes) := by
  have hresult : (site.below lines bytes).result = site.result := rfl
  unfold skipped?
  rw [hresult]
  cases site.result <;> rfl

/-! ## The search behind a line -/

namespace Finds

/-- Lines above a text move the sites in it, and change nothing else about them. -/
theorem place_below (lines bytes : Nat) {place : Position} {text : List Char} {sites : List CallSite}
    (h : Finds place text sites) : Finds (place.below lines bytes) text (sites.map (·.below lines bytes)) := by
  induction h with
  | done => exact .done
  | pass hopening _ ih =>
    rw [← Position.advance_below] at ih
    exact .pass hopening ih
  | never hstays _ ih =>
    rw [← Position.past_below] at ih
    exact .never hstays ih
  | bare hbody hrest _ ih =>
    rw [← Position.past_below] at ih
    exact .bare hbody hrest ih
  | semicolon hbody _ ih =>
    rw [← Position.past_below] at ih
    exact .semicolon hbody ih

/-- The search in a text whose calls are all closed goes on behind a line feed as it begins there. -/
theorem append_line {place : Position} {first second : List Char} {sites more : List CallSite}
    (h : Finds place first sites) (hclosed : ∀ site ∈ sites, site.closing ≠ .never)
    (hsecond : Finds (place.past (first ++ ['\n'])) second more) :
    Finds place (first ++ '\n' :: second) (sites ++ more) := by
  have hline : ∀ verb : Verb, '\n' ∉ verb.opening := fun verb => by cases verb <;> decide
  induction h with
  | done =>
    refine .pass (fun verb => ?_) hsecond
    rw [← List.nil_append ('\n' :: second), isPrefix_append_cons_iff (hline verb), List.prefix_nil]
    exact List.cons_ne_nil _ _
  | @pass place c rest sites hopening _ ih =>
    refine .pass (fun verb => ?_) (ih hclosed hsecond)
    show ¬ verb.opening <+: c :: rest ++ '\n' :: second
    rw [isPrefix_append_cons_iff (hline verb)]
    exact hopening verb
  | never _ _ _ => exact absurd rfl (hclosed _ List.mem_cons_self)
  | @bare place verb body rest sites hbody hrest _ ih =>
    rw [List.append_assoc, List.append_assoc]
    refine .bare hbody ?_ (ih (fun site hsite => hclosed site (List.mem_cons_of_mem _ hsite)) ?_)
    · cases rest with
      | nil => exact fun h => absurd (Option.some.inj h) (by decide)
      | cons c rest => exact hrest
    · rw [← Position.past_append]
      simpa only [List.append_assoc, List.cons_append, List.nil_append] using hsecond
  | @semicolon place verb body rest sites hbody _ ih =>
    rw [List.append_assoc, List.append_assoc]
    refine .semicolon hbody (ih (fun site hsite => hclosed site (List.mem_cons_of_mem _ hsite)) ?_)
    rw [← Position.past_append]
    simpa only [List.append_assoc, List.cons_append, List.nil_append] using hsecond

end Finds

/-! ## Two texts -/

/-- A site whose call is never closed is skipped as unterminated. -/
theorem CallSite.skipped?_of_never {site : CallSite} (h : site.closing = .never) :
    site.skipped? = some ⟨site.verb, .unterminatedCall, site.start⟩ := by
  unfold skipped? result
  rw [h]

/-- What is found in a text without unterminated calls, a line feed and another text: the commands of the
one and those of the other, and so the skipped calls, those of the other below the lines of the one. -/
theorem Extraction.ofText_append_line {first second : List Char}
    (h : ∀ call ∈ (ofText first).skipped, call.reason ≠ .unterminatedCall) :
    ofText (first ++ '\n' :: second) =
      ⟨(ofText first).commands ++ (ofText second).commands,
        (ofText first).skipped ++
          (ofText second).skipped.map (·.below (1 + first.count '\n') (1 + byteCount first))⟩ := by
  have hclosed : ∀ site ∈ callSites Position.start first, site.closing ≠ .never := by
    intro site hsite hnever
    exact h _ (List.mem_filterMap.2 ⟨site, hsite, CallSite.skipped?_of_never hnever⟩) rfl
  have hsecond := (finds_callSites Position.start second).place_below (1 + first.count '\n') (1 + byteCount first)
  rw [← Position.past_line] at hsecond
  have hsites := callSites_of_finds ((finds_callSites Position.start first).append_line hclosed hsecond)
  have hcommands : ((callSites Position.start second).map
      (·.below (1 + first.count '\n') (1 + byteCount first))).filterMap (·.command?) = (ofText second).commands := by
    rw [List.filterMap_map]
    exact congrArg (List.filterMap · _) (funext (CallSite.command?_below _ _))
  have hskipped : ((callSites Position.start second).map
      (·.below (1 + first.count '\n') (1 + byteCount first))).filterMap (·.skipped?) =
      (ofText second).skipped.map (·.below (1 + first.count '\n') (1 + byteCount first)) := by
    rw [List.filterMap_map, ofText, List.map_filterMap]
    exact congrArg (List.filterMap · _) (funext (CallSite.skipped?_below _ _))
  rw [ofText, hsites, List.filterMap_append, List.filterMap_append, hcommands, hskipped]
  rfl

/-- The parenthesis at the end of the first line closes its call, though no semicolon follows there; the
last call is never closed. -/
theorem Extraction.ofText_append_line_bare :
    let first := "_.set(a, 1); é _.add(b, [);\n_.insert(c)".toList
    let second := ";_.remove(x); _.set(d, (".toList
    (∀ call ∈ (ofText first).skipped, call.reason ≠ .unterminatedCall) ∧
      ofText (first ++ '\n' :: second) =
        ⟨[⟨.set, ["a", "1"]⟩, ⟨.remove, ["x"]⟩],
          [⟨.add, .unbalancedArguments, ⟨0, 15, 16⟩⟩, ⟨.insert, .missingSemicolon, ⟨1, 0, 29⟩⟩,
            ⟨.set, .unterminatedCall, ⟨2, 14, 55⟩⟩]⟩ := by
  intro first second
  have h : ∀ call ∈ (ofText first).skipped, call.reason ≠ .unterminatedCall := by decide +kernel
  refine ⟨h, ?_⟩
  rw [ofText_append_line h]
  decide +kernel

end StateScript
