import RegularForms.Proofs.CommandLine.Output
import RegularForms.Proofs.Conversion
import RegularForms.Proofs.Expr.RoundTrip
import RegularForms.Proofs.Labels

/-!
# What a run of the command line prints

None of the conversions that a run asks for is refused when it is begun with the automaton of
an expression, so a run fails just if its text is no expression. The word is tried while the
labels are single symbols, on a graph that has the language of the expression, whatever it is
converted into. An expression always describes a word, so there is always a result, which never
says that there is none.
-/

namespace RegularForms

namespace CommandLine

open Automaton Rewriting

variable {P : Automaton → Prop} {a : Automaton} {l : Language Char} {e : Expr}

/-! ## Trying a word -/

/-- Whether a word, if there is one, is in a language. -/
def Judged (l : Language Char) (word : Option String) (verdict : Option Bool) : Prop :=
  match word with
  | none => verdict = none
  | some w => ∃ accepted, verdict = some accepted ∧ (accepted = true ↔ w.toList ∈ l)

theorem achieves_tryWord (ha : Spelled l a) (word : Option String) :
    Achieves P (tryWord word) a fun verdict b => b = a ∧ Judged l word verdict := by
  cases word with
  | none => exact achieves_pure ⟨rfl, rfl⟩
  | some w =>
      obtain ⟨accepted, haccepts⟩ := ha.literal.exists_accepts_eq w
      have hiff : accepted = true ↔ w.toList ∈ l := by
        rw [← ha.language_eq, ← ha.valid.accepts_eq_true_iff ha.literal, haccepts,
          Except.ok.injEq]
      show Achieves P (some <$> ask fun a => a.accepts w) a _
      rw [← bind_pure_comp]
      exact Achieves.ask haccepts (achieves_pure ⟨rfl, accepted, rfl, hiff⟩)

theorem achieves_report (ha : Spelled l a) (word : Option String) :
    Achieves P (report word) a
      fun result _ => Judged l word result.verdict ∧ Silent result.text := by
  refine Achieves.graph (Achieves.bind ((achieves_tryWord ha word).mono ?_))
  rintro verdict b ⟨-, hverdict⟩
  exact achieves_pure ⟨hverdict, (quiet_print ha.literal).silent⟩

/-- There is an expression for the words of one that can be read, and it can be read as well. -/
theorem achieves_eliminateAll_readable (ha : Spelled e.language a) (he : e.Readable) :
    Achieves (fun b => b.language = e.language) Elimination.eliminateAll a
      fun result _ => ∃ d, result = some d ∧ d.Readable := by
  have hwellFormed : ∀ history result s,
      Elimination.eliminateAll.runOn a history = (.ok result, s) →
        ∀ d, result = some d → d.WellFormed := by
    rintro history _ s hrun d rfl
    exact (Driver.eliminateAll.wellLabelled ha.wellLabelled history).2 d (congrArg Prod.fst hrun)
  refine ((Elimination.achieves_eliminateAll ha.valid ha.worded ha.language_eq).and
    hwellFormed).mono ?_
  rintro _ c ⟨⟨-, hzero⟩ | ⟨-, d, t, rfl, hd, -⟩, hresult⟩
  · obtain ⟨w, hw⟩ := he.wellFormed.exists_mem_language
    rw [hzero] at hw
    exact absurd hw (Language.notMem_zero w)
  · exact ⟨d, rfl, Expr.readable_of_language_eq (hresult d rfl) he hd⟩

/-- Converting an expression for a run finds a result, whatever it is converted into. -/
theorem achieves_convert (he : e.Readable) (owner : Nat) (target : Target) (word : Option String) :
    Achieves (fun b => b.language = e.language) (convert target word) (ofExpr owner e)
      fun result _ => Judged e.language word result.verdict ∧ Silent result.text := by
  refine Achieves.bind ((Expansion.achieves_expandAll
    (Expansion.sought_ofExpr owner he.wellFormed)).mono ?_)
  rintro _ a ⟨ha, hlit⟩
  have hspelled : Spelled e.language a := ⟨ha.valid, hlit, ha.language_eq⟩
  cases target with
  | nfa => exact achieves_report hspelled word
  | dfa =>
      refine Achieves.bind ((Determinization.achieves_determinizeAll ha.valid hlit
        ha.language_eq).mono fun _ b hb => ?_)
      exact achieves_report ⟨hb.valid, hb.literal, hb.language_eq⟩ word
  | regex =>
      refine Achieves.bind ((achieves_tryWord hspelled word).mono ?_)
      rintro verdict b ⟨rfl, hverdict⟩
      refine Achieves.bind ((achieves_eliminateAll_readable hspelled he).mono ?_)
      rintro _ c ⟨d, rfl, hd⟩
      exact achieves_pure ⟨hverdict, silent_print hd⟩

/-! ## Steps -/

theorem traced_tryWord (word : Option String) (a : Automaton) : Traced (tryWord word) a := by
  cases word with
  | none => exact traced_pure none a
  | some w =>
      show Traced (some <$> ask fun a => a.accepts w) a
      rw [← bind_pure_comp]
      exact .ask fun accepted _ => traced_pure (some accepted) a

theorem traced_report (word : Option String) (a : Automaton) : Traced (report word) a :=
  .graph <| (traced_tryWord word a).bind fun _ => traced_pure _

/-- All that is done to convert an expression for a run is to perform batches. -/
theorem traced_convert (target : Target) (word : Option String) (a : Automaton) :
    Traced (convert target word) a := by
  refine (Expansion.traced_expandAll a).bind fun _ b => ?_
  cases target with
  | nfa => exact traced_report word b
  | dfa => exact (Determinization.traced_determinizeAll b).bind fun _ => traced_report word
  | regex =>
      refine (traced_tryWord word b).bind fun _ c =>
        (Elimination.traced_eliminateAll c).bind fun result d => ?_
      cases result <;> exact traced_pure _ d

/-! ## The run -/

theorem toList_printLines_concat (lines : List String) (line : String) :
    (printLines (lines ++ [line])).toList =
      (printLines lines).toList ++ (line.toList ++ ['\n']) := by
  simp [printLines]

/-- Text that ends with one of two verdicts ends with no other. -/
theorem verdictLine_suffix_iff (lines : List String) (accepted verdict : Bool) :
    (verdictLine verdict).toList ++ ['\n'] <:+
        (printLines (lines ++ [verdictLine accepted])).toList ↔ accepted = verdict := by
  rw [toList_printLines_concat]
  constructor
  · intro h
    have hsuffix := List.suffix_of_suffix_length_le h (List.suffix_append _ _)
    cases accepted <;> cases verdict
    · rfl
    · exact absurd (hsuffix (by decide)) (by decide)
    · exact absurd (hsuffix (by decide)) (by decide)
    · rfl
  · rintro rfl
    exact List.suffix_append _ _

/-- A run with the text of an expression prints a result, then the steps if they are wanted, and at
last the verdict if there is a word. -/
theorem exists_run_eq {q : Request} (hparse : Expr.parse q.regex = .ok (some e)) :
    ∃ result b h, (convert q.target q.word).runOn (.ofExpr 0 e) (some (.new q.clobber)) =
        (.ok result, ⟨b, some h⟩) ∧
      run q = .success (result.text :: (if q.steps then stepLines h else []) ++
        (result.verdict.map verdictLine).toList) ∧
      Judged e.language q.word result.verdict ∧ Silent result.text ∧
        ∀ line ∈ stepLines h, Silent line := by
  have he := Expr.readable_of_parse hparse
  obtain ⟨result, b, hrun, hverdict, htext⟩ :=
    (achieves_convert he 0 q.target q.word).runOn_none (language_ofExpr 0 e)
  obtain ⟨steps, c, hc, hexec, hbatch⟩ := traced_convert q.target q.word _ result _ hrun
  have hrecorded := hexec.runOn_some (h := .new q.clobber) (.inl rfl)
  have hsteps : ((History.new q.clobber).keepAll steps).steps = steps :=
    History.steps_keepAll rfl steps
  refine ⟨result, c, _, hrecorded, ?_, hverdict, htext, fun line hline => ?_⟩
  · rw [run, hparse]
    simp only [hrecorded]
    rfl
  · rw [stepLines, hsteps] at hline
    obtain ⟨i, hi, rfl⟩ := List.mem_mapIdx.1 hline
    exact (quiet_stepLine (i + 1) (hbatch _ (List.getElem_mem hi))).silent

theorem run_code_eq_one_iff (q : Request) :
    (run q).code = 1 ↔ ∃ reason, Expr.parse q.regex = .error reason := by
  constructor
  · intro hcode
    cases hparse : Expr.parse q.regex with
    | error reason => exact ⟨reason, rfl⟩
    | ok e? =>
        cases e? with
        | none =>
            rw [run, hparse] at hcode
            nomatch hcode
        | some e =>
            obtain ⟨result, b, h, -, hrun, -⟩ := exists_run_eq hparse
            rw [hrun] at hcode
            nomatch hcode
  · rintro ⟨reason, hparse⟩
    rw [run, hparse]
    rfl

/-- A run fails just if its text is no expression. For the text of an expression and any word,
whatever it is converted into, it nowhere prints that no word is accepted, and the last line tells
whether the word is one of those that the expression describes; so it is the same for all
targets. -/
theorem run_verdict (q : Request) :
    ((run q).code = 1 ↔ ∃ reason, Expr.parse q.regex = .error reason) ∧
      ∀ e w, Expr.parse q.regex = .ok (some e) → q.word = some w →
        ∃ result b h accepted,
          (convert q.target q.word).runOn (.ofExpr 0 e) (some (.new q.clobber)) =
              (.ok result, ⟨b, some h⟩) ∧
            run q = ⟨0, printLines (result.text :: (if q.steps then stepLines h else []) ++
              [verdictLine accepted]), ""⟩ ∧
            ¬ "The expression accepts no word.".toList <:+: (run q).stdout.toList ∧
              ("ACCEPT\n".toList <:+ (run q).stdout.toList ↔ w.toList ∈ e.language) ∧
                ("REJECT\n".toList <:+ (run q).stdout.toList ↔ w.toList ∉ e.language) := by
  refine ⟨run_code_eq_one_iff q, fun e w hparse hword => ?_⟩
  obtain ⟨result, b, h, hconvert, hrun, hjudged, htext, hsteps⟩ := exists_run_eq hparse
  rw [hword] at hjudged
  obtain ⟨accepted, hverdict, haccepted⟩ := hjudged
  rw [hverdict] at hrun
  refine ⟨result, b, h, accepted, hconvert, hrun, ?_, ?_, ?_⟩
  · rw [hrun]
    refine silent_printLines (List.forall_mem_append.2 ⟨List.forall_mem_cons.2 ⟨htext, ?_⟩,
      List.forall_mem_singleton.2 (silent_verdictLine accepted)⟩)
    split
    · exact hsteps
    · exact List.forall_mem_nil _
  · rw [hrun, ← haccepted]
    exact verdictLine_suffix_iff _ accepted true
  · rw [hrun, ← haccepted, Bool.not_eq_true]
    exact verdictLine_suffix_iff _ accepted false

/-- The words `aab` and `""` tried on `a*b`. -/
theorem run_verdict_star :
    Expr.parse "a*b" = .ok (some (.seq [.star (.sym 'a'), .sym 'b'])) ∧
      "ACCEPT\n".toList <:+ (run ⟨"a*b", .dfa, some "aab", true, false⟩).stdout.toList ∧
        "REJECT\n".toList <:+ (run ⟨"a*b", .regex, some "", false, true⟩).stdout.toList := by
  have hparse : Expr.parse "a*b" = .ok (some (.seq [.star (.sym 'a'), .sym 'b'])) := by rfl
  have ha : ['a'] ∈ (Expr.sym 'a').language := rfl
  have hmem : ['a', 'a', 'b'] ∈ (Expr.seq [.star (.sym 'a'), .sym 'b']).language := by
    have hstar : ['a', 'a'] ∈ (Expr.star (.sym 'a')).language :=
      Language.mem_kstar.2 ⟨[['a'], ['a']], rfl, by simp [ha]⟩
    have hlast : ['b'] ∈ Expr.product [.sym 'b'] := ⟨['b'], rfl, [], rfl, rfl⟩
    exact Language.append_mem_mul hstar hlast
  have hno : [] ∉ (Expr.seq [.star (.sym 'a'), .sym 'b']).language := by
    rw [Expr.nil_mem_language]
    decide
  obtain ⟨-, haccept⟩ := run_verdict ⟨"a*b", .dfa, some "aab", true, false⟩
  obtain ⟨-, hreject⟩ := run_verdict ⟨"a*b", .regex, some "", false, true⟩
  obtain ⟨_, _, _, _, -, -, -, haccept, -⟩ := haccept _ _ hparse rfl
  obtain ⟨_, _, _, _, -, -, -, -, hreject⟩ := hreject _ _ hparse rfl
  exact ⟨hparse, haccept.2 hmem, hreject.2 hno⟩

end CommandLine

end RegularForms
