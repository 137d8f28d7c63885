import RegularForms.Expr.Parser
import RegularForms.Expr.Printer
import RegularForms.Proofs.Expr.Symbols

/-!
# Reading what was written

The written form of an expression leaves out every parenthesis that its operators make
needless. Reading it gives the expression back all the same. The proof goes along the
expression and keeps track of what reading the written form does to the level in progress:
an operand is pushed onto it, the operands of a sequence are pushed one by one, and a choice
fills a level of its own. Each of these holds whatever follows in the text.

Conversely, whatever is read from a text is a well-formed expression of writable symbols,
so that writing and reading once more makes no difference.
-/

namespace RegularForms

/-! ## Parentheses in balance -/

/-- A text leaves the level it begins in exactly once it has come to its end. -/
def Balanced (text : List Char) : Prop :=
  ∀ n depth rest, closes depth (tokensFrom n text ++ rest) = closes depth rest

theorem tokensFrom_append_append (n : Nat) (cs ds : List Char) (rest : List Token) :
    tokensFrom n (cs ++ ds) ++ rest =
      tokensFrom n cs ++ (tokensFrom (n + cs.length) ds ++ rest) := by
  rw [tokensFrom_append, List.append_assoc]

theorem tokensFrom_singleton {c : Char} {g : Glyph} (h : glyph? c = some g) (n : Nat) :
    tokensFrom n [c] = [⟨g, n⟩] := by
  rw [tokensFrom, h, tokensFrom_nil]

theorem glyph?_mark (i : Iteration) : glyph? i.mark = some (.iteration i) := by
  cases i <;> rfl

theorem balanced_nil : Balanced [] := fun _ _ _ => rfl

theorem Balanced.append {cs ds : List Char} (hcs : Balanced cs) (hds : Balanced ds) :
    Balanced (cs ++ ds) := by
  intro n depth rest
  rw [tokensFrom_append_append, hcs, hds]

theorem balanced_symbol {c : Char} (h : Writable c) : Balanced [c] := by
  intro n depth rest
  rw [tokensFrom_singleton (glyph?_eq_symbol_iff.2 ⟨rfl, h⟩)]
  cases depth <;> rfl

theorem balanced_mark (i : Iteration) : Balanced [i.mark] := by
  intro n depth rest
  rw [tokensFrom_singleton (glyph?_mark i)]
  cases depth <;> rfl

theorem balanced_bar : Balanced ['|'] := by
  intro n depth rest
  cases depth <;> rfl

theorem closes_group {text : List Char} (h : Balanced text) (n depth : Nat)
    (rest : List Token) :
    closes (depth + 1) (tokensFrom n (text ++ [')']) ++ rest) = closes depth rest := by
  rw [tokensFrom_append_append, h]
  rfl

theorem Balanced.group {text : List Char} (h : Balanced text) :
    Balanced ('(' :: (text ++ [')'])) := by
  intro n depth rest
  have hopen : closes depth (tokensFrom n ('(' :: (text ++ [')'])) ++ rest) =
      closes (depth + 1) (tokensFrom (n + 1) (text ++ [')']) ++ rest) := by
    cases depth <;> rfl
  rw [hopen, closes_group h]

theorem Balanced.enclose {text : List Char} (h : Balanced text) (op : Operator) (e : Expr) :
    Balanced (Expr.enclose op e text) := by
  unfold Expr.enclose
  split
  · exact h.group
  · exact h

/-! ## Levels -/

namespace Level

def pushAll (l : Level) (es : List Expr) : Level := es.foldl push l

@[simp] theorem pushAll_nil (l : Level) : l.pushAll [] = l := rfl

@[simp] theorem pushAll_cons (l : Level) (e : Expr) (es : List Expr) :
    l.pushAll (e :: es) = (l.push e).pushAll es := rfl

theorem pushAll_eq (l : Level) (es : List Expr) :
    l.pushAll es = { l with operands := es.reverse ++ l.operands } := by
  induction es generalizing l with
  | nil => rfl
  | cons e es ih => simp [ih, push]

structure Holds (l : Level) (done : List Expr) (e : Expr) : Prop where
  operands_eq : l.operands = (Expr.parts .sequence e).reverse
  alternatives_eq : l.alternatives = done.reverse

theorem holds_start (e : Expr) : (start.pushAll (Expr.parts .sequence e)).Holds [] e := by
  rw [pushAll_eq]
  exact ⟨List.append_nil _, rfl⟩

end Level

namespace Level

variable {l : Level} {done : List Expr} {e : Expr}

theorem Holds.operands_ne_nil (h : l.Holds done e) (he : e.WellFormed) : l.operands ≠ [] := by
  rw [h.operands_eq]
  exact fun hnil => he.parts_ne_nil .sequence (List.reverse_eq_nil_iff.1 hnil)

theorem ne_nil_of_finish (h : l.finish = .ok (some e)) : l.operands ≠ [] := by
  obtain ⟨operands, alternatives, lastBar⟩ := l
  rintro rfl
  cases lastBar <;> nomatch h

theorem finish_of_nil (hne : l.operands ≠ []) (h : l.alternatives = []) :
    l.finish = .ok (some (Expr.join .sequence l.operands.reverse)) := by
  obtain ⟨_ | ⟨d, ds⟩, alternatives, lastBar⟩ := l
  · exact absurd rfl hne
  · obtain rfl : alternatives = [] := h
    rfl

theorem finish_of_ne_nil (hne : l.operands ≠ []) (h : l.alternatives ≠ []) :
    l.finish = .ok (some (Expr.join .choice
      (Expr.join .sequence l.operands.reverse :: l.alternatives).reverse)) := by
  obtain ⟨_ | ⟨d, ds⟩, _ | ⟨c, cs⟩, lastBar⟩ := l
  · exact absurd rfl hne
  · exact absurd rfl hne
  · exact absurd rfl h
  · rfl

theorem Holds.sequence_eq (h : l.Holds done e) (he : e.WellFormed) :
    Expr.join .sequence l.operands.reverse = e := by
  rw [h.operands_eq, List.reverse_reverse, Expr.join_parts .sequence he]

/-- A level ends with the choice between its alternatives. -/
theorem Holds.finish_eq (h : l.Holds done e) (he : e.WellFormed) :
    l.finish = .ok (some (Expr.join .choice (done ++ [e]))) := by
  have hne := h.operands_ne_nil he
  by_cases hdone : done = []
  · subst hdone
    rw [finish_of_nil hne h.alternatives_eq, h.sequence_eq he, List.nil_append,
      Expr.join_singleton .choice he]
  · have halt : l.alternatives ≠ [] := by
      rw [h.alternatives_eq]
      exact fun hnil => hdone (List.reverse_eq_nil_iff.1 hnil)
    rw [finish_of_ne_nil hne halt, h.sequence_eq he, h.alternatives_eq, List.reverse_cons,
      List.reverse_reverse]

/-- A bar ends the alternative in progress. -/
theorem Holds.bar_eq (h : l.Holds done e) (he : e.WellFormed) (d : Expr) (p : Nat) :
    ∃ m, l.bar p = .ok m ∧ (m.pushAll (Expr.parts .sequence d)).Holds (done ++ [e]) d := by
  refine ⟨⟨[], e :: done.reverse, some p⟩, ?_, ?_⟩
  · unfold bar
    split
    · next hnil => exact absurd hnil (h.operands_ne_nil he)
    · rw [h.sequence_eq he, h.alternatives_eq]
  · rw [pushAll_eq]
    exact ⟨List.append_nil _, by simp⟩

end Level

/-! ## Texts that are read without a refusal -/

/-- Reading a text takes one level to another, whatever the text is part of. -/
def Reads (text : List Char) (before after : Level) : Prop :=
  ∀ n outer rest,
    readTokens outer before (tokensFrom n text ++ rest) = readTokens outer after rest

def Fills (text : List Char) (e : Expr) : Prop :=
  ∀ n outer rest, ∃ l : Level,
    readTokens outer .start (tokensFrom n text ++ rest) = readTokens outer l rest ∧
      l.finish = .ok (some e)

theorem Reads.append {cs ds : List Char} {k l m : Level} (hcs : Reads cs k l)
    (hds : Reads ds l m) : Reads (cs ++ ds) k m := by
  intro n outer rest
  rw [tokensFrom_append_append, hcs, hds]

theorem reads_symbol {c : Char} (h : Writable c) (l : Level) : Reads [c] l (l.push (.sym c)) := by
  intro n outer rest
  rw [tokensFrom_singleton (glyph?_eq_symbol_iff.2 ⟨rfl, h⟩)]
  cases outer <;> rfl

theorem reads_mark (i : Iteration) (l : Level) (e : Expr) :
    Reads [i.mark] (l.push e) (l.push (i.of e)) := by
  intro n outer rest
  rw [tokensFrom_singleton (glyph?_mark i)]
  cases outer <;> rfl

/-- A text in parentheses is read as one operand. -/
theorem Fills.reads_group {text : List Char} {e : Expr} (h : Fills text e)
    (hb : Balanced text) (l : Level) : Reads ('(' :: (text ++ [')'])) l (l.push e) := by
  intro n outer rest
  have hcloses : closes 0 (tokensFrom (n + 1) (text ++ [')']) ++ rest) = true := by
    rw [tokensFrom_append_append, hb]
    rfl
  obtain ⟨m, hread, hfinish⟩ := h (n + 1) ((n, l) :: outer)
    (⟨.closing, n + 1 + text.length⟩ :: rest)
  calc readTokens outer l (tokensFrom n ('(' :: (text ++ [')'])) ++ rest)
      = if closes 0 (tokensFrom (n + 1) (text ++ [')']) ++ rest) then
          readTokens ((n, l) :: outer) .start (tokensFrom (n + 1) (text ++ [')']) ++ rest)
        else .error (.unclosed n) := by cases outer <;> rfl
    _ = readTokens ((n, l) :: outer) .start (tokensFrom (n + 1) (text ++ [')']) ++ rest) :=
        if_pos hcloses
    _ = readTokens ((n, l) :: outer) m (⟨.closing, n + 1 + text.length⟩ :: rest) := by
        rw [tokensFrom_append_append]
        exact hread
    _ = readTokens outer (l.push e) rest := by rw [readTokens, hfinish]

namespace Expr

/-- What reading the written form of an expression does: to the level it is read into unless
the expression is a choice, and to a new level in any case. -/
structure Returns (e : Expr) : Prop where
  balanced : Balanced e.render
  reads : e.operator ≠ .choice → ∀ l : Level, Reads e.render l (l.pushAll (parts .sequence e))
  fills : Fills e.render e

theorem render_of (i : Iteration) (e : Expr) :
    (i.of e).render = enclose (i.of e).operator e e.render ++ [i.mark] := by
  cases i <;> rfl

/-- An expression that is read into a level fills a new one. -/
theorem fills_of_reads {e : Expr} (he : e.WellFormed)
    (h : ∀ l : Level, Reads e.render l (l.pushAll (parts .sequence e))) : Fills e.render e := by
  intro n outer rest
  refine ⟨_, h .start n outer rest, ?_⟩
  rw [(Level.holds_start e).finish_eq he, List.nil_append, join_singleton .choice he]

/-- An operand is read as one operand, in parentheses or not. -/
theorem Returns.reads_enclose {e : Expr} (h : e.Returns) {op : Operator}
    (halt : 0 < op.precedence) (hseq : op.precedence = 1 → e.operator ≠ .sequence) (l : Level) :
    Reads (enclose op e e.render) l (l.push e) := by
  unfold enclose
  split
  · exact h.fills.reads_group h.balanced l
  · next hle =>
      have hflat : e.operator ≠ .choice ∧ e.operator ≠ .sequence := by
        cases e with
        | alt es => exact absurd halt hle
        | seq es =>
            exact ⟨nofun, hseq (Nat.le_antisymm (Nat.not_lt.1 hle) halt)⟩
        | _ => exact ⟨nofun, nofun⟩
      have hread := h.reads hflat.1 l
      rwa [parts_of_ne .sequence hflat.2] at hread

theorem returns_sym {c : Char} (h : Writable c) : (sym c).Returns where
  balanced := balanced_symbol h
  reads _ l := reads_symbol h l
  fills := fills_of_reads (wellFormed_sym c) fun l => reads_symbol h l

theorem returns_of {e : Expr} (i : Iteration) (he : e.WellFormed) (h : e.Returns) :
    (i.of e).Returns := by
  have hreads : ∀ l : Level, Reads (i.of e).render l (l.pushAll (parts .sequence (i.of e))) := by
    intro l
    have hone : parts .sequence (i.of e) = [i.of e] := by cases i <;> rfl
    have hoperand : Reads (enclose (i.of e).operator e e.render) l (l.push e) :=
      h.reads_enclose (by cases i <;> exact Nat.zero_lt_two) (fun hp => by cases i <;> nomatch hp) l
    rw [render_of, hone]
    exact hoperand.append (reads_mark i l e)
  refine ⟨?_, fun _ => hreads, ?_⟩
  · rw [render_of]
    exact (h.balanced.enclose _ e).append (balanced_mark i)
  · exact fills_of_reads (by cases i <;> exact he) hreads

theorem balanced_renderSeq {es : List Expr} (h : ∀ e ∈ es, e.Returns) :
    Balanced (renderSeq es) := by
  induction es with
  | nil => exact balanced_nil
  | cons e es ih =>
      obtain ⟨he, hes⟩ := List.forall_mem_cons.1 h
      exact (he.balanced.enclose _ e).append (ih hes)

theorem balanced_renderBars {es : List Expr} (h : ∀ e ∈ es, e.Returns) :
    Balanced (renderBars es) := by
  induction es with
  | nil => exact balanced_nil
  | cons e es ih =>
      obtain ⟨he, hes⟩ := List.forall_mem_cons.1 h
      exact balanced_bar.append ((he.balanced.enclose _ e).append (ih hes))

theorem returns_seq {es : List Expr} (he : (seq es).WellFormed) (h : ∀ e ∈ es, e.Returns) :
    (seq es).Returns := by
  obtain ⟨-, hflat, -⟩ := wellFormed_seq.1 he
  have hreads : ∀ l : Level, Reads (renderSeq es) l (l.pushAll es) := by
    clear he
    induction es with
    | nil => exact fun _ _ _ _ => rfl
    | cons e es ih =>
        intro l
        obtain ⟨he, hes⟩ := List.forall_mem_cons.1 h
        obtain ⟨hseq, hflat⟩ := List.forall_mem_cons.1 hflat
        exact (he.reads_enclose (by decide) (fun _ => hseq) l).append (ih hes hflat (l.push e))
  exact ⟨balanced_renderSeq h, fun _ => hreads, fills_of_reads he hreads⟩

/-- Reading further alternatives, each after a bar. -/
theorem exists_reads_bars {es : List Expr}
    (h : ∀ e ∈ es, e.Returns ∧ e.operator ≠ .choice ∧ e.WellFormed) {l : Level}
    {done : List Expr} {e : Expr} (hl : l.Holds done e) (he : e.WellFormed) (n : Nat)
    (outer : List (Nat × Level)) (rest : List Token) :
    ∃ m : Level, readTokens outer l (tokensFrom n (renderBars es) ++ rest) =
        readTokens outer m rest ∧
      m.finish = .ok (some (join .choice (done ++ e :: es))) := by
  induction es generalizing l done e n with
  | nil => exact ⟨l, rfl, hl.finish_eq he⟩
  | cons d ds ih =>
      obtain ⟨⟨hd, hflat, hwf⟩, hds⟩ := List.forall_mem_cons.1 h
      obtain ⟨k, hbar, hk⟩ := hl.bar_eq he d n
      obtain ⟨m, hread, hfinish⟩ := ih hds hk hwf (n + 1 + d.render.length)
      refine ⟨m, ?_, by rw [hfinish, List.append_assoc, List.singleton_append]⟩
      calc readTokens outer l (tokensFrom n (renderBars (d :: ds)) ++ rest)
          = readTokens outer l
              (⟨.bar, n⟩ :: (tokensFrom (n + 1) (d.render ++ renderBars ds) ++ rest)) := by
            rw [renderBars, enclose_choice]
            rfl
        _ = readTokens outer k (tokensFrom (n + 1) (d.render ++ renderBars ds) ++ rest) := by
            cases outer <;> rw [readTokens, hbar]
        _ = readTokens outer (k.pushAll (parts .sequence d))
              (tokensFrom (n + 1 + d.render.length) (renderBars ds) ++ rest) := by
            rw [tokensFrom_append_append]
            exact hd.reads hflat k _ _ _
        _ = readTokens outer m rest := hread

theorem returns_alt {es : List Expr} (he : (alt es).WellFormed) (h : ∀ e ∈ es, e.Returns) :
    (alt es).Returns := by
  obtain ⟨hlength, hflat, hwf⟩ := wellFormed_alt.1 he
  cases es with
  | nil => exact absurd hlength (by decide)
  | cons e es =>
      have hrender : (alt (e :: es)).render = e.render ++ renderBars es := by
        rw [render, enclose_choice]
      have hall : ∀ d ∈ e :: es, d.Returns ∧ d.operator ≠ .choice ∧ d.WellFormed := fun d hd =>
        ⟨h d hd, hflat d hd, hwf d hd⟩
      obtain ⟨⟨hd, hdflat, hdwf⟩, hds⟩ := List.forall_mem_cons.1 hall
      refine ⟨?_, fun halt => absurd rfl halt, fun n outer rest => ?_⟩
      · rw [hrender]
        exact hd.balanced.append (balanced_renderBars fun d hd => (hds d hd).1)
      · obtain ⟨m, hread, hfinish⟩ := exists_reads_bars hds (Level.holds_start e) hdwf
          (n + e.render.length) outer rest
        refine ⟨m, ?_, by rw [hfinish, List.nil_append, join_eq_node .choice hlength hflat]; rfl⟩
        rw [hrender, tokensFrom_append_append, hd.reads hdflat]
        exact hread

/-- The written form of a readable expression is read as the expression. -/
theorem Readable.returns {e : Expr} (h : e.Readable) : e.Returns := by
  induction e using ind with
  | sym c => exact returns_sym (h.writable c List.mem_cons_self)
  | star e ih => exact returns_of .star h.wellFormed (ih (readable_of_iff (i := .star).1 h))
  | plus e ih => exact returns_of .plus h.wellFormed (ih (readable_of_iff (i := .plus).1 h))
  | opt e ih => exact returns_of .option h.wellFormed (ih (readable_of_iff (i := .option).1 h))
  | seq es ih => exact returns_seq h.wellFormed fun d hd => ih d hd (h.of_mem_operands hd)
  | alt es ih => exact returns_alt h.wellFormed fun d hd => ih d hd (h.of_mem_operands hd)

/-- Reading the written form of a readable expression gives the expression back. -/
theorem Readable.parse_print_eq {e : Expr} (h : e.Readable) : parse e.print = .ok (some e) := by
  obtain ⟨l, hread, hfinish⟩ := h.returns.fills 0 [] []
  rw [parse, print, String.toList_ofList, readChars, tokens, ← List.append_nil (tokensFrom _ _),
    hread, readTokens, hfinish]

end Expr

/-! ## What is read from a text -/

structure Level.Readable (l : Level) : Prop where
  operands : ∀ e ∈ l.operands, e.Readable
  alternatives : ∀ e ∈ l.alternatives, e.Readable

def WritableTokens (ts : List Token) : Prop :=
  ∀ t ∈ ts, ∀ c, t.glyph = .symbol c → Writable c

theorem writableTokens_tokensFrom (n : Nat) (text : List Char) :
    WritableTokens (tokensFrom n text) := by
  induction text generalizing n with
  | nil => exact fun t ht => nomatch ht
  | cons c cs ih =>
      rw [tokensFrom]
      split
      · next g hg =>
          refine List.forall_mem_cons.2 ⟨fun d hd => ?_, ih (n + 1)⟩
          obtain ⟨rfl, hwritable⟩ := glyph?_eq_symbol_iff.1 (hg.trans (congrArg some hd))
          exact hwritable
      · exact ih (n + 1)

namespace Level.Readable

variable {l m : Level}

theorem start : Level.start.Readable := ⟨List.forall_mem_nil _, List.forall_mem_nil _⟩

theorem push (h : l.Readable) {e : Expr} (he : e.Readable) : (l.push e).Readable :=
  ⟨List.forall_mem_cons.2 ⟨he, h.operands⟩, h.alternatives⟩

theorem iterate (h : l.Readable) {i : Iteration} {p : Nat} (hm : l.iterate i p = .ok m) :
    m.Readable := by
  unfold Level.iterate at hm
  split at hm
  · nomatch hm
  · next e es hl =>
      obtain rfl := Except.ok.inj hm
      obtain ⟨he, hes⟩ := List.forall_mem_cons.1 (hl ▸ h.operands)
      exact ⟨List.forall_mem_cons.2 ⟨Expr.readable_of_iff.2 he, hes⟩, h.alternatives⟩

theorem sequence_operands (h : l.Readable) (hne : l.operands ≠ []) :
    (Expr.join .sequence l.operands.reverse).Readable :=
  Expr.readable_join .sequence (fun hnil => hne (List.reverse_eq_nil_iff.1 hnil)) fun e he =>
    h.operands e (List.mem_reverse.1 he)

theorem bar (h : l.Readable) {p : Nat} (hm : l.bar p = .ok m) : m.Readable := by
  unfold Level.bar at hm
  split at hm
  · nomatch hm
  · next hne =>
      obtain rfl := Except.ok.inj hm
      exact ⟨List.forall_mem_nil _,
        List.forall_mem_cons.2 ⟨h.sequence_operands hne, h.alternatives⟩⟩

theorem finish (h : l.Readable) {e : Expr} (he : l.finish = .ok (some e)) : e.Readable := by
  have hne := Level.ne_nil_of_finish he
  have hlast := h.sequence_operands hne
  by_cases halt : l.alternatives = []
  · rw [Level.finish_of_nil hne halt] at he
    exact Option.some.inj (Except.ok.inj he) ▸ hlast
  · rw [Level.finish_of_ne_nil hne halt] at he
    obtain rfl := Option.some.inj (Except.ok.inj he)
    refine Expr.readable_join .choice (by simp) fun d hd => ?_
    rcases List.mem_cons.1 (List.mem_reverse.1 hd) with rfl | hd
    · exact hlast
    · exact h.alternatives d hd

end Level.Readable

/-- Whatever is read from writable tokens is readable. -/
theorem readable_of_readTokens {outer : List (Nat × Level)} {l : Level} {ts : List Token}
    {e : Expr} (houter : ∀ p ∈ outer, p.2.Readable) (hl : l.Readable) (hts : WritableTokens ts)
    (he : readTokens outer l ts = .ok (some e)) : e.Readable := by
  have htail : ∀ {t : Token} {ts : List Token}, WritableTokens (t :: ts) → WritableTokens ts :=
    fun h => (List.forall_mem_cons.1 h).2
  fun_induction readTokens outer l ts with
  | case1 l => exact hl.finish he
  | case3 outer l c p ts ih =>
      have hc := hts _ List.mem_cons_self c rfl
      exact ih houter (hl.push (Expr.readable_sym hc)) (htail hts) he
  | case5 outer l i p ts m hm ih => exact ih houter (hl.iterate hm) (htail hts) he
  | case7 outer l p ts m hm ih => exact ih houter (hl.bar hm) (htail hts) he
  | case8 outer l p ts _ ih =>
      exact ih (List.forall_mem_cons.2 ⟨hl, houter⟩) .start (htail hts) he
  | case13 opened around outer l p ts d hd ih =>
      obtain ⟨haround, houter⟩ := List.forall_mem_cons.1 houter
      exact ih houter (haround.push (hl.finish hd)) (htail hts) he
  | _ => nomatch he

namespace Expr

theorem readable_of_parse {text : String} {e : Expr} (h : parse text = .ok (some e)) :
    e.Readable :=
  readable_of_readTokens (List.forall_mem_nil _) .start (writableTokens_tokensFrom 0 _) h

/-- Reading the written form of a well-formed expression of writable symbols gives the same
expression; and whatever is read from a text is such an expression, so that writing it,
reading that and writing it again yields the same text. -/
theorem parse_print_stable :
    (∀ e : Expr, e.Readable → parse e.print = .ok (some e)) ∧
      ∀ (text : String) (e : Expr), parse text = .ok (some e) →
        e.Readable ∧ ∃ d, parse e.print = .ok (some d) ∧ d.print = e.print := by
  refine ⟨fun e he => he.parse_print_eq, fun text e htext => ?_⟩
  have he := readable_of_parse htext
  exact ⟨he, e, he.parse_print_eq, rfl⟩

/-- The case of `(a|b*)?c|(d|e)+`, and of the text ` ((a)b|(c | d)) ` with its needless
parentheses. -/
theorem parse_print_stable_group :
    (parse (alt [seq [opt (alt [.sym 'a', star (.sym 'b')]), .sym 'c'],
        plus (alt [.sym 'd', .sym 'e'])]).print =
      .ok (some (alt [seq [opt (alt [.sym 'a', star (.sym 'b')]), .sym 'c'],
        plus (alt [.sym 'd', .sym 'e'])]))) ∧
      parse " ((a)b|(c | d)) " = .ok (some (alt [seq [.sym 'a', .sym 'b'], .sym 'c', .sym 'd'])) ∧
      (alt [seq [.sym 'a', .sym 'b'], .sym 'c', .sym 'd']).Readable := by
  have hread : parse " ((a)b|(c | d)) " =
      .ok (some (alt [seq [.sym 'a', .sym 'b'], .sym 'c', .sym 'd'])) := by rfl
  exact ⟨parse_print_stable.1 _ (by decide), hread, (parse_print_stable.2 _ _ hread).1⟩

end Expr

end RegularForms
