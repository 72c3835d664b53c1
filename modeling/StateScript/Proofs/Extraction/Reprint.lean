/-
Printing undoes extraction. Commands that were found in texts, whatever these were, are printed one
behind the other with prose between them; what is found in the printed text are just these commands,
and no call is skipped. Two kinds of commands do not come back: one whose last argument is empty,
which is printed as if there were none, and one with an argument before the last that ends in an odd
number of backslashes, which take away the meaning of the comma behind it.
-/
import StateScript.Proofs.Extraction.Site

namespace StateScript

open Text Arguments

/-! ## Printed commands -/

/-- The arguments as they are printed between the parentheses. -/
def Command.inside (command : Command) : List Char := [',', ' '].intercalate (command.arguments.map String.toList)

/-- A command as a call with a semicolon. -/
def Command.written (command : Command) : List Char := command.display.toList ++ [';']

/-- Commands with prose before each of them, and prose behind them. -/
def interleaved (parts : List (List Char × Command)) (after : List Char) : List Char :=
  parts.flatMap (fun (prose, command) => prose ++ command.written) ++ after

theorem interleaved_cons (prose : List Char) (command : Command) (parts : List (List Char × Command))
    (after : List Char) :
    interleaved ((prose, command) :: parts) after = prose ++ (command.written ++ interleaved parts after) := by
  simp only [interleaved, List.flatMap_cons, List.append_assoc]

theorem Command.written_eq (command : Command) :
    command.written = command.verb.opening ++ (command.inside ++ [')', ';']) := by
  have hprefix : command.verb.opening = ("_." ++ command.verb.word ++ "(").toList := by
    rw [String.toList_append, String.toList_append]
    rfl
  rw [written, display, hprefix, inside, String.toList_append, String.toList_append, String.toList_intercalate]
  simp only [List.append_assoc]
  rfl

/-- The printed arguments are read again: no character of them closes the call, the parenthesis behind
them does, and they are cut into the arguments. -/
structure Command.Readable (command : Command) : Prop where
  stays : ({} : CallScan).Stays command.inside
  closes : (({} : CallScan).past command.inside).closes ')' = true
  splits : splitBalanced? command.inside = some (command.arguments.map String.toList)

theorem getLast?_map_toList {arguments : List String} (h : arguments.getLast? ≠ some "") :
    (arguments.map String.toList).getLast? ≠ some [] := by
  rw [List.getLast?_map]
  intro hempty
  obtain ⟨a, ha, hnil⟩ := Option.map_eq_some_iff.1 hempty
  exact h (ha.trans (congrArg some (String.toList_inj.1 hnil)))

/-- Commands that were found are read again when they are printed, but for the two kinds above. -/
theorem readable_of_mem_commands {text : List Char} {command : Command}
    (h : command ∈ (Extraction.ofText text).commands)
    (hback : ∀ a ∈ command.arguments.dropLast, trailingBackslashes a.toList % 2 ≠ 1)
    (hlast : command.arguments.getLast? ≠ some "") : command.Readable := by
  obtain ⟨body, arguments, hstays, hcloses, hsplit, harguments⟩ := exists_body_of_mem_commands h
  obtain ⟨hbalanced, rfl⟩ : isBalanced body = true ∧ split body = arguments := by
    unfold splitBalanced? at hsplit
    split at hsplit
    · next hb => exact ⟨hb, Option.some.inj hsplit⟩
    · cases hsplit
  have hlists : command.arguments.map String.toList = split body := by
    rw [harguments, List.map_map]
    exact (List.map_congr_left fun a _ => String.toList_ofList).trans (List.map_id _)
  have hinside : command.inside = [',', ' '].intercalate (split body) := congrArg _ hlists
  have hback' : ∀ a ∈ (split body).dropLast, trailingBackslashes a % 2 ≠ 1 := by
    rw [← hlists, ← List.map_dropLast]
    intro a ha
    obtain ⟨b, hb, rfl⟩ := List.mem_map.1 ha
    exact hback b hb
  have hlast' : (split body).getLast? ≠ some [] := hlists ▸ getLast?_map_toList hlast
  obtain ⟨hsame, hclosed⟩ := split_intercalate (fun a => isArgument_of_mem_split hbalanced) hback' hlast'
  obtain ⟨hstays', hcloses'⟩ := CallScan.stays_intercalate_split hstays hcloses
  refine ⟨hinside ▸ hstays', hinside ▸ hcloses', ?_⟩
  rw [hinside, hlists, splitBalanced?, if_pos hclosed, hsame]

/-! ## The search over the printed text -/

theorem CallSite.result_of_readable {command : Command} (h : command.Readable) (start : Position) :
    (⟨command.verb, start, .semicolon command.inside⟩ : CallSite).result = .ok command := by
  have hstrings : (command.arguments.map String.toList).map String.ofList = command.arguments := by
    rw [List.map_map]
    exact (List.map_congr_left fun a _ => String.ofList_toList).trans (List.map_id _)
  unfold CallSite.result
  simp only [h.splits, hstrings]

/-- The sites of the printed text give the commands, in their order. -/
theorem results_interleaved : ∀ {parts : List (List Char × Command)} {after : List Char},
    (∀ part ∈ parts, IsProse part.1 ∧ part.2.Readable) → IsProse after → ∀ place : Position,
    (callSites place (interleaved parts after)).map (·.result) = parts.map (.ok ·.2)
  | [], after, _, hafter, place => by
    have hnone := @callSites_prose after [] hafter (fun _ h => by cases h) place
    rw [List.append_nil, callSites_nil] at hnone
    show (callSites place after).map _ = _
    rw [hnone]
    rfl
  | (prose, command) :: parts, after, h, hafter, place => by
    obtain ⟨hprose, hreadable⟩ := h _ List.mem_cons_self
    have htext : interleaved ((prose, command) :: parts) after =
        prose ++ (command.verb.opening ++ (command.inside ++ ')' :: ';' :: interleaved parts after)) := by
      rw [interleaved_cons, command.written_eq, List.append_assoc, List.append_assoc]
      rfl
    have hopening : ∀ d, (command.verb.opening ++ (command.inside ++ ')' :: ';' :: interleaved parts after)).head? =
        some d → d = '_' := fun d hd => (Option.some.inj hd).symm
    rw [htext, callSites_prose hprose hopening, callSites_call _ hreadable.stays hreadable.closes, List.map_cons,
      CallSite.result_of_readable hreadable,
      results_interleaved (fun part hpart => h part (List.mem_cons_of_mem _ hpart)) hafter]
    rfl

/-- Sites that all give commands give these commands, and skip no call. -/
theorem CallSite.filterMap_of_results : ∀ {sites : List CallSite} {commands : List Command},
    sites.map (·.result) = commands.map .ok →
    sites.filterMap (·.command?) = commands ∧ sites.filterMap (·.skipped?) = []
  | [], commands, h => by
    obtain rfl : commands = [] := List.map_eq_nil_iff.1 h.symm
    exact ⟨rfl, rfl⟩
  | site :: sites, [], h => by cases h
  | site :: sites, command :: commands, h => by
    rw [List.map_cons, List.map_cons, List.cons.injEq] at h
    obtain ⟨hresult, hrest⟩ := h
    obtain ⟨ih, ihskipped⟩ := filterMap_of_results hrest
    have hcommand : site.command? = some command := by
      unfold command?
      rw [hresult]
    have hskipped : site.skipped? = none := by
      unfold skipped?
      rw [hresult]
    rw [List.filterMap_cons_some hcommand, List.filterMap_cons_none hskipped, ih]
    exact ⟨rfl, ihskipped⟩

/-- A printed command is found again, and nothing else is. -/
theorem Extraction.ofText_written {command : Command} (h : command.Readable) :
    Extraction.ofText command.written = ⟨[command], []⟩ := by
  have hsites : (callSites Position.start command.written).map (·.result) = [command].map .ok := by
    rw [command.written_eq, callSites_call command.verb h.stays h.closes [], callSites_nil, List.map_singleton,
      CallSite.result_of_readable h, List.map_singleton]
  obtain ⟨hcommands, hskipped⟩ := CallSite.filterMap_of_results hsites
  rw [Extraction.ofText, hcommands, hskipped]

/-- Commands that were found in texts are found again where they are printed with prose between them,
and no call is skipped. -/
theorem Extraction.ofText_interleaved {parts : List (List Char × Command)} {after : List Char}
    (hfound : ∀ part ∈ parts, ∃ text, part.2 ∈ (Extraction.ofText text).commands)
    (hlast : ∀ part ∈ parts, part.2.arguments.getLast? ≠ some "")
    (hback : ∀ part ∈ parts, ∀ a ∈ part.2.arguments.dropLast, trailingBackslashes a.toList % 2 ≠ 1)
    (hprose : ∀ part ∈ parts, IsProse part.1) (hafter : IsProse after) :
    Extraction.ofText (interleaved parts after) = ⟨parts.map (·.2), []⟩ := by
  have hresults := results_interleaved (fun part hpart => by
    obtain ⟨text, htext⟩ := hfound part hpart
    exact ⟨hprose part hpart, readable_of_mem_commands htext (hback part hpart) (hlast part hpart)⟩)
    hafter Position.start
  obtain ⟨hcommands, hskipped⟩ := @CallSite.filterMap_of_results _ (parts.map (·.2))
    (hresults.trans List.map_map.symm)
  rw [Extraction.ofText, hcommands, hskipped]

theorem Extraction.ofText_interleaved_two :
    let parts : List (List Char × Command) :=
      [("First _.".toList, ⟨.set, ["hp", "10"]⟩), ("; then ".toList, ⟨.insert, ["bag", "'a, (b'"]⟩)]
    Extraction.ofText (interleaved parts " (done);".toList) = ⟨parts.map (·.2), []⟩ := by
  have hfound : ∃ text, (⟨.set, ["hp", "10"]⟩ : Command) ∈ (Extraction.ofText text).commands :=
    ⟨"_.set( hp ,\t10 );".toList, by decide +kernel⟩
  have hfound' : ∃ text, (⟨.insert, ["bag", "'a, (b'"]⟩ : Command) ∈ (Extraction.ofText text).commands :=
    ⟨"_.set(x); _.insert(bag,'a, (b', );".toList, by decide +kernel⟩
  have hfirst : IsProse "First _.".toList := fun verb => by cases verb <;> decide +kernel
  have hthen : IsProse "; then ".toList := fun verb => by cases verb <;> decide +kernel
  have hdone : IsProse " (done);".toList := fun verb => by cases verb <;> decide +kernel
  refine Extraction.ofText_interleaved ?_ (by decide +kernel) (by decide +kernel) ?_ hdone
  · exact List.forall_mem_cons.2 ⟨hfound, List.forall_mem_cons.2 ⟨hfound', List.forall_mem_nil _⟩⟩
  · exact List.forall_mem_cons.2 ⟨hfirst, List.forall_mem_cons.2 ⟨hthen, List.forall_mem_nil _⟩⟩

end StateScript
