import Mathlib.Data.List.Chain
import RegularForms.CommandLine.Run
import RegularForms.Proofs.Automaton.Accept
import RegularForms.Proofs.Execution
import RegularForms.Proofs.Expr.Words

/-!
# What the text of a run says

A run may print that the expression accepts no word. That message is a line of its own, so it is
nowhere in the output if it is in none of the texts that are printed. It is not in an expression
that can be read, which is written without blanks. It begins with a `T` before an `h`; in the
written form of an automaton whose labels are single symbols, and in the line of a step, a `T` is
a symbol and stands before a colon or a quotation mark.
-/

namespace RegularForms

namespace CommandLine

open Automaton

variable {s t : String} {texts : List String}

/-- The text nowhere says that no word is accepted. -/
def Silent (text : String) : Prop :=
  ¬ "The expression accepts no word.".toList <:+: text.toList

/-! ## Lines -/

theorem infix_of_infix_append_cons {c : Char} {p u v : List Char} (hc : c ∉ p)
    (h : p <:+: u ++ c :: v) : p <:+: u ∨ p <:+: v := by
  rcases List.infix_append_iff.1 h with h | h | ⟨q, r, rfl, hq, hr⟩
  · exact .inl h
  · rcases List.infix_cons_iff.1 h with h | h
    · rcases List.prefix_cons_iff.1 h with rfl | ⟨q, rfl, -⟩
      · exact .inl List.nil_infix
      · exact absurd List.mem_cons_self hc
    · exact .inr h
  · rcases List.prefix_cons_iff.1 hr with rfl | ⟨r, rfl, -⟩
    · rw [List.append_nil]
      exact .inl hq.isInfix
    · exact absurd (List.mem_append_right _ List.mem_cons_self) hc

theorem silent_printLines (h : ∀ line ∈ texts, Silent line) : Silent (printLines texts) := by
  induction texts with
  | nil => simp [Silent, printLines]
  | cons line lines ih =>
      obtain ⟨hline, hlines⟩ := List.forall_mem_cons.1 h
      have heq : (printLines (line :: lines)).toList =
          line.toList ++ '\n' :: (printLines lines).toList := by simp [printLines]
      have hbreak : '\n' ∉ "The expression accepts no word.".toList := by decide
      rw [Silent, heq]
      exact fun hsays => (infix_of_infix_append_cons hbreak hsays).elim hline (ih hlines)

/-- An expression that can be read is written without blanks. -/
theorem silent_print {e : Expr} (he : e.Readable) : Silent e.print := by
  intro hsays
  have hblank : ' ' ∈ "The expression accepts no word.".toList := by decide
  exact absurd (he.isBlank_eq_false (String.toList_ofList ▸ hsays.subset hblank)) (by decide)

theorem silent_verdictLine (accepted : Bool) : Silent (verdictLine accepted) := by
  unfold Silent
  cases accepted <;> decide

/-! ## Quiet texts -/

/-- No `T` of the text stands before an `h`, whatever comes after the text. -/
def Quiet (text : String) : Prop :=
  (text.toList ++ ['h']).IsChain fun c d => ¬ (c = 'T' ∧ d = 'h')

theorem Quiet.silent (h : Quiet s) : Silent s := by
  intro hsays
  have hpart := hsays.trans (List.prefix_append _ ['h']).isInfix
  have hchain := List.IsChain.infix h hpart
  exact absurd hchain (by decide)

theorem Quiet.append (hs : Quiet s) (ht : Quiet t) : Quiet (s ++ t) := by
  obtain ⟨hchain, -, hlast⟩ := List.isChain_append.1 hs
  rw [Quiet, String.toList_append, List.append_assoc]
  exact hchain.append ht fun c hc _ _ h => hlast c hc 'h' rfl ⟨h.1, rfl⟩

theorem quiet_join (h : ∀ text ∈ texts, Quiet text) : Quiet (String.join texts) := by
  induction texts with
  | nil => exact List.isChain_singleton 'h'
  | cons text texts ih =>
      obtain ⟨htext, htexts⟩ := List.forall_mem_cons.1 h
      rw [String.join_cons]
      exact htext.append (ih htexts)

theorem quiet_intercalate (hs : Quiet s) (h : ∀ text ∈ texts, Quiet text) :
    Quiet (s.intercalate texts) := by
  induction texts with
  | nil => exact List.isChain_singleton 'h'
  | cons text texts ih =>
      obtain ⟨htext, htexts⟩ := List.forall_mem_cons.1 h
      cases texts with
      | nil => rwa [String.intercalate_singleton]
      | cons next texts =>
          rw [String.intercalate_cons_cons]
          exact (htext.append hs).append (ih htexts)

theorem quiet_of_notMem (h : 'T' ∉ s.toList) : Quiet s := by
  rw [Quiet]
  generalize s.toList = text at h
  induction text with
  | nil => decide
  | cons c text ih =>
      rw [List.mem_cons, not_or] at h
      exact List.isChain_cons.2 ⟨fun _ _ hT => h.1 hT.1.symm, ih h.2⟩

/-- A `T` may stand before a text that does not begin with an `h`. -/
theorem Quiet.symbol_append {c d : Char} (ht : Quiet t) (hs : s.toList = [c])
    (hfirst : t.toList.head? = some d) (hd : d ≠ 'h') : Quiet (s ++ t) := by
  rw [Quiet, String.toList_append, hs, List.append_assoc]
  refine List.isChain_cons.2 ⟨fun e he h => hd ?_, ht⟩
  have heq : (t.toList ++ ['h']).head? = some d := by rw [List.head?_append, hfirst]; rfl
  exact (Option.some.inj (heq.symm.trans he)).trans h.2

theorem notMem_toString (n : Nat) : 'T' ∉ (toString n).toList := by
  intro h
  rw [Nat.toString_eq_repr, Nat.toList_repr] at h
  exact absurd (Nat.isDigit_of_mem_toDigits (by decide) (by decide) h) (by decide)

theorem quiet_toString {kind : Kind} (i : Ident kind) : Quiet (toString i) :=
  quiet_of_notMem (notMem_toString i.index)

theorem quiet_name (isolation : Isolation) : Quiet (toString isolation) := by
  refine quiet_of_notMem ?_
  rcases isolation with ⟨_ | _, _ | _⟩ <;> decide

/-! ## Automata -/

theorem quiet_arc {t : Transition} (h : t.label.isSymbol = true) :
    Quiet s!"{t.label}:{t.target}," := by
  obtain ⟨c, hc⟩ := Expr.isSymbol_iff.1 h
  have hprint : t.label.print.toList = [c] := by rw [hc, Expr.print, String.toList_ofList]; rfl
  have hsymbol : Quiet (t.label.print ++ ":") :=
    (quiet_of_notMem (by decide)).symbol_append hprint rfl (by decide)
  exact (hsymbol.append (quiet_toString t.target)).append (quiet_of_notMem (by decide))

theorem quiet_print {a : Automaton} (ha : a.Literal) : Quiet a.print := by
  have hstart : Quiet s!"start {a.start}" :=
    (quiet_of_notMem (by decide)).append (quiet_toString a.start)
  refine quiet_intercalate (quiet_of_notMem (by decide)) (List.forall_mem_cons.2 ⟨hstart, ?_⟩)
  refine List.forall_mem_map.2 fun n hn => ?_
  have harcs : Quiet (String.join (n.out.map fun t => s!"{t.label}:{t.target},")) :=
    quiet_join (List.forall_mem_map.2 fun t ht => quiet_arc (ha t (mem_transitions.2 ⟨n, hn, ht⟩)))
  refine (((quiet_toString n.id).append (quiet_of_notMem ?_)).append harcs).append
    (quiet_of_notMem ?_)
  · decide
  · cases n.state.accepting <;> decide

/-! ## Steps -/

theorem quiet_describe (purpose : Purpose) : Quiet purpose.describe := by
  cases purpose with
  | isolateFinal | isolateInitial => exact quiet_of_notMem (by decide)
  | expandChoice t | expandSequence t | expandOption t | removeEpsilon t | mergeEquivalent t
  | foldLoop t | bypass t =>
      refine Quiet.append ?_ (quiet_toString t)
      exact quiet_of_notMem (by decide)
  | expandIteration t isolation =>
      refine (((Quiet.append ?_ (quiet_toString t)).append ?_).append (quiet_name isolation)).append
        ?_
      all_goals exact quiet_of_notMem (by decide)
  | determinize s c =>
      have htext : Quiet "remove non-determinism on '" := quiet_of_notMem (by decide)
      have hsymbol : Quiet (String.singleton c ++ "' from state ") :=
        (quiet_of_notMem (by decide)).symbol_append (String.toList_singleton c) rfl (by decide)
      have hquiet := (htext.append hsymbol).append (quiet_toString s)
      rwa [← String.append_assoc] at hquiet
  | detachState s =>
      refine (Quiet.append ?_ (quiet_toString s)).append ?_
      all_goals exact quiet_of_notMem (by decide)
  | joinParallel source target =>
      refine ((Quiet.append ?_ (quiet_toString source)).append ?_).append (quiet_toString target)
      all_goals exact quiet_of_notMem (by decide)

theorem quiet_stepLine (i : Nat) {s : Step} (hs : s.edit.IsBatch) : Quiet (stepLine i s) := by
  obtain ⟨purpose, edits, hedit⟩ := hs
  have hcolumn : 'T' ∉ (toString i).toList.leftpad 4 ' ' := by
    rw [List.leftpad, List.mem_append, List.mem_replicate]
    rintro (⟨-, h⟩ | h)
    · exact absurd h (by decide)
    · exact notMem_toString i h
  have hnumber : Quiet (String.ofList ((toString i).toList.leftpad 4 ' ')) :=
    quiet_of_notMem (String.toList_ofList ▸ hcolumn)
  have hdescribe : Quiet s.edit.describe := hedit ▸ quiet_describe purpose
  exact (hnumber.append (quiet_of_notMem (by decide))).append hdescribe

end CommandLine

end RegularForms
