import HeaderOutline.Proofs.LeadingTokens
import HeaderOutline.Proofs.Leads
/-!
# Declarations parted into lines

A terminated declaration that is broken into lines is read by joining them: as long as the lines so
far match nothing, the next one is joined to them. The reading comes to the declaration if nothing
takes the lines before the last one has been joined. Two things can take them. A brace or a
semicolon in one of them is recognized by the rules for delimiters. And a signature whose text ends
is taken as the head of a definition, since its body may stand in the next line; so it is, for
instance, when a line ends right before `const`.

These two are all. The other rules for declarations would have to recognize the text as well, and
the rules on text begin with keywords that begin no declaration, but for a class that is named by
one of them.

Results:
* `Rule.Begins.refuses`: what the text tells of the lines joined so far.
* `Rule.match?_of_declRule`: a rule that recognizes a declaration is the first to.
* `Rule.match?_joined`, `Rule.match?_take`: all lines match as the text does, fewer match nothing.
* `declares_broken`: the lines and the text are read as the same declaration.
-/
namespace HeaderOutline
open Text Declaration Token

/-! ## What the rules leave to a declaration -/

namespace Rule

theorem refused_of_match? {context : Context} {className : Option String} {cs rest : List Char}
    {k : Construct} {rule r : Rule} (h : match? context className cs = some (rule, k, rest))
    (hr : r ∈ all.takeWhile (· ≠ rule)) (ha : r.appliesIn context = true) :
    recognize? className cs r = none := by
  obtain ⟨before, a, after, hl, hf, hnone⟩ := List.findSome?_eq_some_iff.mp h
  obtain ⟨x, hx, heq⟩ := Option.map_eq_some_iff.mp hf
  obtain rfl : a = rule := (Prod.mk.inj heq).1
  have horder : all.Pairwise fun a b => b ∉ all.takeWhile (· ≠ a) := by decide
  have hmem : r ∈ all.filter (appliesIn context) :=
    List.mem_filter.mpr ⟨(List.takeWhile_sublist _).subset hr, ha⟩
  rw [hl, List.mem_append, List.mem_cons] at hmem
  rcases hmem with hmem | rfl | hmem
  · simpa using hnone r hmem
  · exact absurd hr (by cases r <;> decide)
  · have hpair := (hl ▸ horder.filter _ : (before ++ a :: after).Pairwise _)
    exact absurd hr ((List.pairwise_cons.mp (List.pairwise_append.mp hpair).2.1).1 r hmem)

/-- The rules whose constructs may be terminated declarations. -/
def declRules : List Rule :=
  [callOperator, operator, function, destructor, constructor]

theorem declRules_subset : declRules ⊆ declarationRules := by
  intro rule hr
  revert rule
  decide

/-- The rules before one for declarations are the rules on text and others for declarations. -/
theorem before_declRule {rule r : Rule} (hd : rule ∈ declRules)
    (hr : r ∈ all.takeWhile (· ≠ rule)) :
    r ∈ textRules ∨ r ∈ declarationRules ∧ r ≠ rule := by
  have hall : ∀ q ∈ declRules, ∀ r ∈ all.takeWhile (· ≠ q),
      r ∈ textRules ∨ r ∈ declarationRules ∧ r ≠ q := by decide
  exact hall rule hd r hr

/-- A text that begins with the word `enum` is taken for an enum, not for the constructor of a class
of that name. -/
theorem not_startsEnum_of_match? {context : Context} {className : Option String}
    {cs rest : List Char} {k : Construct} {rule : Rule}
    (h : match? context className cs = some (rule, k, rest)) (hd : rule ∈ declRules) :
    startsEnum cs = false := by
  have hall : ∀ q ∈ declRules, enumHead ∈ all.takeWhile (· ≠ q) ∧
      ∀ context, q.appliesIn context = true → enumHead.appliesIn context = true := by
    intro q hq
    refine ⟨by revert q; decide, fun context hc => ?_⟩
    simp only [declRules, List.mem_cons, List.not_mem_nil, or_false] at hq
    rcases hq with rfl | rfl | rfl | rfl | rfl <;> cases context <;> simp_all [appliesIn]
  obtain ⟨hbefore, ha⟩ := hall rule hd
  have hnone := refused_of_match? h hbefore (ha context (recognize?_of_match? h).1)
  refine Bool.eq_false_iff.mpr fun hstart => ?_
  simp [recognize?, hstart] at hnone

/-- A text and some beginning of its lines joined again, where a rule for declarations recognizes
both the text and the lines. -/
structure Begins (context : Context) (className : Option String) (t cs : List Char) (rule : Rule) :
    Prop where
  applies : rule.appliesIn context = true
  declares : rule ∈ declRules
  accepts : Accepts className (tokens t) rule
  noEnum : startsEnum t = false
  head : ∃ c, t.head? = some c ∧ cs.head? = some c ∧ isBlank c = false
  lines : ∃ ds k rest m, recognize? className ds rule = some (k, rest) ∧
    Continues [] false (tokens t) (tokens ds) ∧ tokens ds = tokens cs ++ m

namespace Begins

variable {context : Context} {className : Option String} {t cs : List Char} {rule : Rule}

theorem mem_declarationRules (h : Begins context className t cs rule) : rule ∈ declarationRules :=
  declRules_subset h.declares

/-- The tokens go on so that they are those of all the lines. -/
theorem exists_tokens (h : Begins context className t cs rule) :
    ∃ m, Continues [] false (tokens t) (tokens cs ++ m) ∧
      Accepts className (tokens cs ++ m) rule ∧ kindOf (tokens cs ++ m) = rule := by
  obtain ⟨ds, k, rest, m, hds, hus, htokens⟩ := h.lines
  have haccepts := accepts_of_recognize? h.mem_declarationRules hds
  have hkind := kindOf_of_accepts (lexical_tokens ds) (.refl _) haccepts
  rw [htokens] at hus haccepts hkind
  exact ⟨m, hus, haccepts, hkind⟩

theorem head_ne (h : Begins context className t cs rule) : cs.head? ≠ some '#' := by
  intro he
  obtain ⟨c, htc, hcc, -⟩ := h.head
  obtain rfl : c = '#' := Option.some.inj (hcc.symm.trans he)
  obtain ⟨r, rfl⟩ := List.head?_eq_some_iff.mp htc
  exact not_accepts_hash h.mem_declarationRules h.accepts

theorem eq_constructor (h : Begins context className t cs rule) {x : Token} {xs : List Token}
    (hx : tokens cs = x :: xs)
    (hled : x.text ∈ textWords) :
    rule = constructor := by
  obtain ⟨m, -, -, hkind⟩ := h.exists_tokens
  rw [← hkind, hx, List.cons_append, (kindOf_led (.inr hled) _).1]

/-- Where there are namespaces, there are no constructors. -/
theorem ne_constructor (h : Begins context className t cs rule) (hc : context = .nameSpace) :
    rule ≠ constructor := by
  rintro rfl
  have ha := h.applies
  rw [hc] at ha
  cases ha

/-- The keyword of a label may name a class, but no parenthesis follows it in a label. -/
theorem refuses_access (h : Begins context className t cs rule) : access? cs = none := by
  by_contra hne
  obtain ⟨x, y, xs, hx, hword, hparen⟩ :=
    tokens_of_access? (Option.isSome_iff_ne_none.mpr hne)
  have hall : ∀ w ∈ ["public", "protected", "private"],
      w ∈ textWords ∧ w ∉ ["explicit", "inline", "constexpr"] := by decide
  obtain ⟨hled, hspecifier⟩ := hall _ hword
  obtain rfl := h.eq_constructor hx hled
  obtain ⟨m, -, ⟨name, -, hctor⟩, -⟩ := h.exists_tokens
  rw [hx] at hctor
  obtain ⟨q, _, heq, hq⟩ := paren_of_constructor? hctor hspecifier
  obtain ⟨rfl, -⟩ := List.cons.inj heq
  exact hparen hq

theorem refuses_linkage (h : Begins context className t cs rule) (hc : context = .nameSpace) :
    linkage? cs = none := by
  by_contra hne
  obtain ⟨x, xs, hx, hword⟩ := tokens_of_linkage? (Option.isSome_iff_ne_none.mpr hne)
  exact h.ne_constructor hc (h.eq_constructor hx (by rw [hword]; decide))

theorem refuses_nameSpace (h : Begins context className t cs rule) (hc : context = .nameSpace) :
    nameSpace? cs = none := by
  by_contra hne
  rcases tokens_of_nameSpace? (Option.isSome_iff_ne_none.mpr hne) with
    ⟨x, xs, hx, hword⟩ | ⟨x, xs, hx, hled⟩
  · exact h.ne_constructor hc (h.eq_constructor hx (by rw [hword]; decide))
  · obtain ⟨m, -, -, hkind⟩ := h.exists_tokens
    rw [hx, List.cons_append, List.cons_append,
      (kindOf_led (hled.imp id fun hword => by rw [hword]; decide) _).2] at hkind
    exact h.ne_constructor hc hkind.symm

/-- The word may name a class, but then the text would have been taken for an enum. -/
theorem not_startsEnum (h : Begins context className t cs rule) : startsEnum cs = false := by
  refine Bool.eq_false_iff.mpr fun hstart => ?_
  obtain ⟨xs, hx⟩ := tokens_of_startsEnum hstart
  obtain rfl := h.eq_constructor hx (by decide)
  obtain ⟨m, hus, -, -⟩ := h.exists_tokens
  obtain ⟨c, htc, -, hc⟩ := h.head
  obtain ⟨name, -, hctor⟩ := h.accepts
  obtain ⟨r, rfl⟩ := List.head?_eq_some_iff.mp htc
  obtain ⟨u, us, hu, -, hgap⟩ := @tokens_of_head c r hc
  rw [hu, hx] at hus
  obtain ⟨u', v, heq, -, hu', -⟩ := hus.uncons hgap
  have hword : u.text = "enum" := by rw [← hu', ← (List.cons.inj heq).1]
  rw [hu] at hctor
  obtain ⟨q, us', rfl, hq⟩ := paren_of_constructor? hctor (by rw [hword]; decide)
  have henum := startsEnum_of_tokens rfl hc hu hword hq
  rw [h.noEnum] at henum
  cases henum

theorem refuses_textRule (h : Begins context className t cs rule) {r : Rule} (hr : r ∈ textRules)
    (ha : r.appliesIn context = true) : recognize? className cs r = none := by
  have hhash : afterMark? '#' cs = none := by
    by_contra hne
    obtain ⟨r, hmark⟩ := Option.ne_none_iff_exists'.mp hne
    exact h.head_ne (by rw [← append_of_afterMark? hmark]; rfl)
  simp only [textRules, List.mem_cons, List.not_mem_nil, or_false] at hr
  rcases hr with rfl | rfl | rfl | rfl | rfl | rfl
  case inl => simp [recognize?, define?, hhash]
  case inr.inl => simp [recognize?, directive?, hhash]
  case inr.inr.inl => exact h.refuses_access
  case inr.inr.inr.inl => exact h.refuses_linkage (by simpa [appliesIn] using ha)
  case inr.inr.inr.inr.inl => exact h.refuses_nameSpace (by simpa [appliesIn] using ha)
  case inr.inr.inr.inr.inr => simp [recognize?, h.not_startsEnum]

/-- No other rule for declarations recognizes a beginning of the lines. -/
theorem refuses_declarationRule (h : Begins context className t cs rule) {r : Rule}
    (hr : r ∈ declarationRules) (hne : r ≠ rule) : recognize? className cs r = none := by
  obtain ⟨ds, k, rest, m, hds, -, htokens⟩ := h.lines
  by_contra hsome
  obtain ⟨⟨k', rest'⟩, hsome⟩ := Option.ne_none_iff_exists'.mp hsome
  exact hne (eq_of_recognize? hr h.mem_declarationRules htokens hsome hds)

theorem refuses_delimiterRule {r : Rule} (hr : r ∈ [openBrace, closeBrace, statement])
    (hd : ∀ t ∈ tokens cs, isDelimiter t = false) : recognize? className cs r = none := by
  have hup : ∀ text, upTo? text (tokens cs) = none := fun text => by
    have hdrop : (tokens cs).dropWhile (fun t => !isDelimiter t) = [] :=
      List.dropWhile_eq_nil_iff.mpr fun t ht => by simp [hd t ht]
    rw [upTo?, hdrop]
    rfl
  simp only [List.mem_cons, List.not_mem_nil, or_false] at hr
  rcases hr with rfl | rfl | rfl <;> simp [recognize?, readText, throughClose?, hup]

/-- Before the rules for delimiters only the rule of the text itself may recognize a beginning of
the lines. -/
theorem refuses (h : Begins context className t cs rule) {r : Rule}
    (hr : r ∉ [openBrace, closeBrace, statement]) (hne : r ≠ rule)
    (ha : r.appliesIn context = true) : recognize? className cs r = none := by
  have hsorts : ∀ q ∈ all, q ∈ textRules ∨ q ∈ declarationRules ∨
      q ∈ [openBrace, closeBrace, statement] := by decide
  rcases hsorts r (by cases r <;> decide) with hmem | hmem | hmem
  · exact h.refuses_textRule hmem ha
  · exact h.refuses_declarationRule hmem hne
  · exact absurd hmem hr

/-- What the rule itself recognizes of the lines is matched by it. -/
theorem match? (h : Begins context className t cs rule) {k : Construct} {rest : List Char}
    (hr : recognize? className cs rule = some (k, rest)) :
    Rule.match? context className cs = some (rule, k, rest) := by
  refine match?_of_recognize? h.applies hr fun r hmem ha => ?_
  rcases before_declRule h.declares hmem with htext | ⟨hdeclaration, hne⟩
  · exact h.refuses_textRule htext ha
  · exact h.refuses_declarationRule hdeclaration hne

/-- Without a delimiter, what the rule itself refuses of the lines matches nothing. -/
theorem match?_eq_none (h : Begins context className t cs rule)
    (hr : recognize? className cs rule = none) (hd : ∀ u ∈ tokens cs, isDelimiter u = false) :
    Rule.match? context className cs = none := by
  refine List.findSome?_eq_none_iff.mpr fun r hmem => Option.map_eq_none_iff.mpr ?_
  by_cases hne : r = rule
  · rw [hne, hr]
  · by_cases hdelimiter : r ∈ [openBrace, closeBrace, statement]
    · exact refuses_delimiterRule hdelimiter hd
    · exact h.refuses hdelimiter hne (List.mem_filter.mp hmem).2

end Begins

theorem trimStart_of_tokens {cs : List Char} (h : tokens cs = []) : trimStart cs = [] := by
  have hn : next? cs = none := by
    cases hn : next? cs with
    | none => rfl
    | some x => rw [tokens_of_next? hn] at h; cases h
  exact List.dropWhile_eq_nil_iff.mpr fun c hc => isBlank_of_isSpace (isSpace_of_next?_none hn c hc)

/-- A text that a steady reader takes to its end is taken also when it has been broken. -/
theorem readText_steady {α : Type} {read : Reader α} {make : α → Construct} {t ds : List Char}
    {k : Construct} (hadvances : Advances read) (hsteady : Steady [] read)
    (hus : Continues [] false (tokens t) (tokens ds)) (h : readText read make t = some (k, [])) :
    ∃ rest, readText read make ds = some (k, rest) ∧ trimStart rest = [] := by
  obtain ⟨⟨a, r⟩, hread, heq⟩ := Option.map_eq_some_iff.mp h
  obtain ⟨rfl, htext⟩ := Prod.mk.inj heq
  have hr : r = [] := by
    have h := tokens_textOf (hadvances hread).1
    rw [show textOf r t = [] from htext, tokens_of_next?_none rfl] at h
    exact h.symm
  subst hr
  obtain ⟨-, hv⟩ := hsteady (tokens t) hread rfl
  obtain ⟨_, v, hv, hcv⟩ := hv hus
  obtain rfl := hcv.eq_of_nil
  refine ⟨textOf [] ds, by rw [readText, hv]; rfl, trimStart_of_tokens ?_⟩
  exact tokens_textOf List.nil_suffix

theorem recognize?_of_continues {className : Option String} {t ds : List Char} {k : Construct}
    {rule : Rule} (hr : rule ∈ declRules) (hus : Continues [] false (tokens t) (tokens ds))
    (h : recognize? className t rule = some (k, [])) :
    ∃ rest, recognize? className ds rule = some (k, rest) ∧ trimStart rest = [] := by
  simp only [declRules, List.mem_cons, List.not_mem_nil, or_false] at hr
  rcases hr with rfl | rfl | rfl | rfl | rfl <;> simp only [recognize?] at h ⊢
  · exact readText_steady advances_callOperator? (Steady.callOperator? []) hus h
  · exact readText_steady advances_operator? (Steady.operator? []) hus h
  · exact readText_steady advances_function? (Steady.function? []) hus h
  · exact readText_steady advances_destructor? (Steady.destructor? []) hus h
  · obtain ⟨name, rfl, hread⟩ := Option.bind_eq_some_iff.mp h
    exact readText_steady (advances_constructor? name) (Steady.constructor? [] name) hus hread

end Rule

/-! ## Terminated declarations -/

/-- What a declaration reports that a semicolon ends. -/
def Construct.declEvent? : Construct → Option Event
  | .function f true => some (.functionDecl f)
  | .constructor c true => some (.constructorDecl c.name c.params)
  | .destructor name true => some (.destructorDecl name)
  | _ => none

theorem Construct.does_of_declEvent? {k : Construct} {e : Event} (h : k.declEvent? = some e)
    (fs : ScopeStack) : k.Does fs [(e, fs)] fs := by
  unfold declEvent? at h
  split at h
  · cases h; exact does_functionDecl _
  · cases h; exact does_constructorDecl _
  · cases h; exact does_destructorDecl _
  · cases h

namespace Rule

/-- Only the rules for functions and members of classes recognize terminated declarations. -/
theorem mem_declRules {className : Option String} {cs rest : List Char} {k : Construct}
    {rule : Rule} {e : Event} (h : recognize? className cs rule = some (k, rest))
    (hk : k.declEvent? = some e) :
    rule ∈ declRules := by
  cases makes_of_recognize? h with
  | callOperator | operator | function | destructor | constructor => decide
  | _ => cases hk

theorem refuses_blank {r : Rule} (hr : r ∈ textRules) {c : Char} (hc : isBlank c = true)
    (className : Option String) (cs : List Char) : recognize? className (c :: cs) r = none :=
  refuses_first hr (isNameChar_of_isBlank hc) (by rintro rfl; revert hc; decide) className cs

/-- What a rule for functions or members of classes recognizes it is the first to recognize, unless
the text begins with the word `enum`. -/
theorem match?_of_declRule {context : Context} {className : Option String} {t rest : List Char}
    {k : Construct} {rule : Rule} (hd : rule ∈ declRules)
    (ha : rule.appliesIn context = true) (hr : recognize? className t rule = some (k, rest))
    (he : startsEnum t = false) : match? context className t = some (rule, k, rest) := by
  have hdeclares := declRules_subset hd
  match t with
  | [] =>
    have hk : k ≠ .enumHead := by
      rintro rfl
      cases makes_of_recognize? hr
      revert hd
      decide
    exact absurd (length_of_recognize? hr hk) (Nat.not_lt_zero _)
  | c :: t =>
    cases hc : isBlank c with
    | false =>
      have hbegins : Begins context className (c :: t) (c :: t) rule :=
        { applies := ha
          declares := hd
          accepts := accepts_of_recognize? hdeclares hr
          noEnum := he
          head := ⟨c, rfl, rfl, hc⟩
          lines := ⟨c :: t, k, rest, [], hr, .refl _, (List.append_nil _).symm⟩ }
      exact hbegins.match? hr
    | true =>
      refine match?_of_recognize? ha hr fun r hmem _ => ?_
      rcases before_declRule hd hmem with htext | ⟨hdeclaration, hne⟩
      · exact refuses_blank htext hc className t
      · by_contra hsome
        obtain ⟨⟨k', rest'⟩, hsome⟩ := Option.ne_none_iff_exists'.mp hsome
        exact hne (eq_of_recognize? hdeclaration hdeclares (List.append_nil _).symm hsome hr)

end Rule

/-! ## Lines that are joined -/

/-- A line that goes on in the next and holds neither a brace nor a semicolon. -/
structure Undelimited (w : List Char) : Prop where
  trimmed : Trimmed w
  closed : LiteralsEnd w
  plain : ∀ u ∈ tokens w, Rule.isDelimiter u = false

namespace Undelimited

variable {w w' : List Char}

theorem tokens_join (h : Undelimited w) (cs : List Char) :
    tokens (w ++ ' ' :: cs) = tokens w ++ spaceFirst (tokens cs) := by
  rw [tokens_append_blank h.trimmed.isBlank_last h.closed (by decide), tokens_space (by decide)]

theorem join (h : Undelimited w) (h' : Undelimited w') : Undelimited (w ++ ' ' :: w') where
  trimmed := by
    obtain ⟨c, r, hw, hc⟩ := h.trimmed.head
    obtain ⟨r', c', hw', hc'⟩ := h'.trimmed.last
    exact ⟨⟨c, r ++ ' ' :: w', by rw [hw]; rfl, hc⟩, ⟨w ++ ' ' :: r', c', by rw [hw']; simp, hc'⟩⟩
  closed := (literalsEnd_append h.closed).mpr h'.closed
  plain := by
    rw [h.tokens_join]
    intro u hu
    rcases List.mem_append.mp hu with hu | hu
    · exact h.plain u hu
    · generalize hts : tokens w' = ts at hu
      cases ts with
      | nil => cases hu
      | cons t ts =>
        have hplain := hts ▸ h'.plain
        rcases List.mem_cons.mp hu with rfl | hu
        · exact hplain t List.mem_cons_self
        · exact hplain u (List.mem_cons_of_mem _ hu)

theorem withLines {text : List Char} {ls : List SourceLine}
    (h : ∀ l ∈ text :: ls.map (·.text), Undelimited l) :
    Undelimited (HeaderOutline.withLines text ls) := by
  induction ls generalizing text with
  | nil => exact h text List.mem_cons_self
  | cons k ls ih =>
    refine ih fun l hl => ?_
    rcases List.mem_cons.mp hl with rfl | hl
    · exact (h text List.mem_cons_self).join (h k.text (by simp))
    · exact h l (by simp [hl])

end Undelimited

theorem prefix_withLines (text : List Char) (ls : List SourceLine) :
    text <+: withLines text ls := by
  induction ls generalizing text with
  | nil => exact List.prefix_refl text
  | cons l ls ih => exact (List.prefix_append text _).trans (ih (text ++ ' ' :: l.text))

namespace Broken

variable {t : List Char} {ws : List (List Char)}

theorem ne_nil (h : Broken t ws) : ws ≠ [] := by
  cases h <;> exact List.cons_ne_nil _ _

theorem head_line {w : List Char} (h : Broken t (w :: ws)) :
    ∃ c, t.head? = some c ∧ isBlank c = false ∧ ∀ r, (w ++ r).head? = some c := by
  cases h with
  | whole hw | parted hw _ _ _ _ =>
    obtain ⟨c, r, rfl, hc⟩ := hw.head
    exact ⟨c, rfl, hc, fun _ => rfl⟩

theorem undelimited (h : Broken t ws)
    (hd : ∀ w ∈ ws.dropLast, ∀ u ∈ tokens w, Rule.isDelimiter u = false) :
    ∀ w ∈ ws.dropLast, Undelimited w := by
  induction h with
  | whole => exact fun w hw => absurd hw List.not_mem_nil
  | parted hw hl _ _ hb ih =>
    rw [List.dropLast_cons_of_ne_nil hb.ne_nil] at hd ⊢
    intro w' hw'
    rcases List.mem_cons.mp hw' with rfl | hw'
    · exact ⟨hw, hl, hd _ List.mem_cons_self⟩
    · exact ih (fun w h => hd w (List.mem_cons_of_mem _ h)) w' hw'

end Broken

/-! ## What the joined lines match -/

namespace Rule

section

variable {context : Context} {className : Option String} {t : List Char} {line : SourceLine}
  {ls : List SourceLine} {rule : Rule} {k : Construct} {e : Event}

theorem undelimited_take (hu : ∀ w ∈ (line.text :: ls.map (·.text)).dropLast, Undelimited w)
    {i : Nat} (hi : i < ls.length) : Undelimited (withLines line.text (ls.take i)) := by
  refine Undelimited.withLines fun w hw => hu w ?_
  have htake : line.text :: (ls.take i).map (·.text) =
      (line.text :: ls.map (·.text)).take (i + 1) := by
    rw [List.take_succ_cons, List.map_take]
  rw [htake] at hw
  rw [List.dropLast_eq_take]
  exact List.take_subset_take_left _ (by simpa using Nat.succ_le_of_lt hi) hw

/-- Every beginning of the lines, joined again, is told by the text. -/
theorem begins_take (hm : match? context className t = some (rule, k, []))
    (hk : k.declEvent? = some e) (hb : Broken t (line.text :: ls.map (·.text)))
    (hu : ∀ w ∈ (line.text :: ls.map (·.text)).dropLast, Undelimited w) (i : Nat) :
    Begins context className t (withLines line.text (ls.take i)) rule where
  applies := (recognize?_of_match? hm).1
  declares := mem_declRules (recognize?_of_match? hm).2 hk
  accepts := accepts_of_recognize? (declRules_subset (mem_declRules (recognize?_of_match? hm).2 hk))
    (recognize?_of_match? hm).2
  noEnum := not_startsEnum_of_match? hm (mem_declRules (recognize?_of_match? hm).2 hk)
  head := by
    obtain ⟨c, ht, hc, hline⟩ := hb.head_line
    obtain ⟨r, hr⟩ := prefix_withLines line.text (ls.take i)
    exact ⟨c, ht, hr ▸ hline r, hc⟩
  lines := by
    have hrecognize := (recognize?_of_match? hm).2
    have hus := continues_of_broken hb
    obtain ⟨rest, hds, -⟩ := recognize?_of_continues (mem_declRules hrecognize hk) hus hrecognize
    refine ⟨withLines line.text ls, k, rest, ?_⟩
    have hsplit := withLines_append line.text (ls.take i) (ls.drop i)
    rw [List.take_append_drop] at hsplit
    cases hdrop : ls.drop i with
    | nil =>
      rw [hdrop] at hsplit
      exact ⟨[], hds, hus, by rw [List.append_nil]; exact congrArg tokens hsplit⟩
    | cons l later =>
      -- A proper beginning of the lines ends where the next one begins.
      have hi : i < ls.length := by
        by_contra hge
        rw [List.drop_eq_nil_of_le (Nat.le_of_not_lt hge)] at hdrop
        cases hdrop
      rw [hdrop, withLines_cons] at hsplit
      exact ⟨_, hds, hus, by rw [hsplit, (undelimited_take hu hi).tokens_join]⟩

/-- The lines joined again match as the text does, and leave nothing but blanks. -/
theorem match?_joined (hm : match? context className t = some (rule, k, []))
    (hk : k.declEvent? = some e) (hb : Broken t (line.text :: ls.map (·.text)))
    (hu : ∀ w ∈ (line.text :: ls.map (·.text)).dropLast, Undelimited w) :
    ∃ rest, match? context className (withLines line.text ls) = some (rule, k, rest) ∧
      trimStart rest = [] := by
  have hrecognize := (recognize?_of_match? hm).2
  obtain ⟨rest, hds, hrest⟩ :=
    recognize?_of_continues (mem_declRules hrecognize hk) (continues_of_broken hb) hrecognize
  have hbegins := begins_take hm hk hb hu ls.length
  rw [List.take_length] at hbegins
  exact ⟨rest, hbegins.match? hds, hrest⟩

/-- A beginning of the lines that the rule refuses matches nothing. -/
theorem match?_take (hm : match? context className t = some (rule, k, []))
    (hk : k.declEvent? = some e) (hb : Broken t (line.text :: ls.map (·.text)))
    (hu : ∀ w ∈ (line.text :: ls.map (·.text)).dropLast, Undelimited w) {i : Nat}
    (hi : i < ls.length)
    (hopen : recognize? className (withLines line.text (ls.take i)) rule = none) :
    match? context className (withLines line.text (ls.take i)) = none :=
  (begins_take hm hk hb hu i).match?_eq_none hopen (undelimited_take hu hi).plain

end

end Rule

/-! ## Reading the lines -/

namespace State

variable {s : State} {line : SourceLine} {ls later : List SourceLine}

/-- From the state, the reading makes the one call of the event and comes to the lines `later` in
the same scopes. -/
def Declares (s : State) (e : Event) (later : List SourceLine) : Prop :=
  ∃ es u, Reads s es u ∧ calls es = [(e, s.scopes)] ∧ u.scopes = s.scopes ∧ u.pending = later

/-- A line that matches nothing is joined with the next. -/
theorem reads_join {next : SourceLine} (hp : s.pending = line :: next :: later)
    (hm : Rule.match? s.scopes.context (s.scopes.topClass?.map (·.name)) line.text = none) :
    ∃ es u, Reads s es u ∧ calls es = [] ∧ u.scopes = s.scopes ∧
      u.pending = ⟨line.number, line.text ++ ' ' :: next.text⟩ :: later := by
  obtain ⟨es, u, hs, hc, hscopes, hpending, -⟩ := @step_of_unmatched s line next later hm
  exact ⟨es, u, .one hp hs, hc, hscopes, hpending⟩

/-- Lines are joined as long as their beginnings match nothing. -/
theorem reads_joined (hp : s.pending = line :: (ls ++ later))
    (hm : ∀ i < ls.length, Rule.match? s.scopes.context (s.scopes.topClass?.map (·.name))
      (withLines line.text (ls.take i)) = none) :
    ∃ es u, Reads s es u ∧ calls es = [] ∧ u.scopes = s.scopes ∧
      u.pending = ⟨line.number, withLines line.text ls⟩ :: later := by
  induction ls generalizing s line with
  | nil => exact ⟨[], s, .refl s, rfl, rfl, hp⟩
  | cons next ls ih =>
    obtain ⟨es, u, hr, hc, hs, hpu⟩ := reads_join hp (hm 0 (Nat.succ_pos _))
    obtain ⟨es', v, hr', hc', hs', hpv⟩ := ih hpu fun i hi => by
      rw [hs]
      exact hm (i + 1) (Nat.succ_lt_succ hi)
    exact ⟨es ++ es', v, hr.trans hr', by rw [calls_append, hc, hc']; rfl, hs'.trans hs, hpv⟩

theorem declares_of_match {rule : Rule} {k : Construct} {e : Event} {rest : List Char}
    (hp : s.pending = line :: later)
    (hm : Rule.match? s.scopes.context (s.scopes.topClass?.map (·.name)) line.text =
      some (rule, k, rest)) (hk : k.declEvent? = some e) (hrest : trimStart rest = []) :
    s.Declares e later := by
  obtain ⟨es, t, hs, hc, hscopes, hpending, -⟩ :=
    step_of_does later hm (k.does_of_declEvent? hk s.scopes)
  refine ⟨es, t, .one hp hs, hc, hscopes, ?_⟩
  rw [hpending, requeue, hrest]
  rfl

end State

/-- A text that is recognized as a terminated declaration is read as that declaration also from the
lines into which it is broken, if no line but the last holds a brace or a semicolon and no beginning
of the lines is recognized already. -/
theorem declares_broken {s : State} {line : SourceLine} {ls later : List SourceLine}
    {t : List Char} {rule : Rule} {k : Construct} {e : Event}
    (hp : s.pending = line :: (ls ++ later))
    (hm : Rule.match? s.scopes.context (s.scopes.topClass?.map (·.name)) t = some (rule, k, []))
    (hk : k.declEvent? = some e) (hb : Broken t (line.text :: ls.map (·.text)))
    (hplain : ∀ w ∈ (line.text :: ls.map (·.text)).dropLast, ∀ u ∈ tokens w,
      Rule.isDelimiter u = false)
    (hopen : ∀ i < ls.length, Rule.recognize? (s.scopes.topClass?.map (·.name))
      (withLines line.text (ls.take i)) rule = none) :
    s.Declares e later ∧
      ∀ number, State.Declares { s with pending := ⟨number, t⟩ :: later } e later := by
  have hu := hb.undelimited hplain
  refine ⟨?_, fun number => State.declares_of_match rfl hm hk rfl⟩
  obtain ⟨rest, hjoined, hrest⟩ := Rule.match?_joined hm hk hb hu
  obtain ⟨es, u, hr, hc, hs, hpu⟩ := State.reads_joined hp fun i hi =>
    Rule.match?_take hm hk hb hu hi (hopen i hi)
  obtain ⟨es', v, hr', hc', hs', hpv⟩ := State.declares_of_match hpu (by rw [hs]; exact hjoined) hk
    hrest
  exact ⟨es ++ es', v, hr.trans hr', by rw [calls_append, hc, hc', hs]; rfl, hs'.trans hs, hpv⟩

/-- A member function on one line. -/
def getterText : List Char :=
  "virtual int  get(const std::string &name, int n = 3) const;".toList

/-- The member function on three lines. -/
def getterLines : List SourceLine :=
  [⟨4, "virtual int".toList⟩, ⟨5, "get(const std::string &name,".toList⟩,
    ⟨6, "int n = 3) const;".toList⟩]

def getter : Signature :=
  ⟨none, some (.ofTokens ["int"]), "get",
    [⟨.ofTokens ["const", "std::string", "&"], some "name"⟩, ⟨.ofTokens ["int"], some "n"⟩],
    true, false, true, none⟩

def inStore (lines : List SourceLine) : State :=
  ⟨lines ++ [⟨7, "\x7d;".toList⟩], [.classBody (.ofHead "Store" .isClass none)],
    some ⟨3, "public:".toList⟩, ⟨5, 1, 0, 0⟩⟩

theorem declares_getter :
    Broken getterText (getterLines.map (·.text)) ∧
      Rule.match? .classBody (some "Store") getterText =
        some (.function, .function getter true, []) ∧
      (inStore getterLines).Declares (.functionDecl getter) [⟨7, "\x7d;".toList⟩] ∧
      (inStore [⟨4, getterText⟩]).Declares (.functionDecl getter) [⟨7, "\x7d;".toList⟩] := by
  have hb : Broken ("virtual int".toList ++ ("  ".toList ++
      ("get(const std::string &name,".toList ++ (" ".toList ++ "int n = 3) const;".toList))))
      (getterLines.map (·.text)) :=
    .parted (by decide) (by decide) (by decide) (by decide)
      (.parted (by decide) (by decide) (by decide) (by decide) (.whole (by decide)))
  have hm : Rule.match? .classBody (some "Store") getterText =
      some (.function, .function getter true, []) := by decide +kernel
  obtain ⟨hlines, htext⟩ := @declares_broken (inStore getterLines) _ getterLines.tail _ _ _ _ _ rfl
    hm rfl hb (by decide +kernel) (by decide +kernel)
  exact ⟨hb, hm, hlines, htext 4⟩

/-- In no scope, the two lines are the parts of a terminated declaration, but they are not read as
it is. -/
def Misread (w w' : String) : Prop :=
  let t := w ++ " " ++ w'
  Broken t.toList [w.toList, w'.toList] ∧
    (∃ k e, Rule.match? .nameSpace none t.toList = some (.function, k, []) ∧
      k.declEvent? = some e ∧ (parse t).calls = [(e, [])]) ∧
    (parse (w ++ "\n" ++ w')).calls ≠ (parse t).calls

theorem broken_pair {w w' : String} (h : Trimmed w.toList) (hl : LiteralsEnd w.toList)
    (h' : Trimmed w'.toList) : Broken (w ++ " " ++ w').toList [w.toList, w'.toList] := by
  rw [String.toList_append, String.toList_append, List.append_assoc]
  exact .parted h hl (by decide) (by decide) (.whole h')

/-- A break before `const` makes a definition, and a line with braces is read before the next. -/
theorem misread_const_misread_braces :
    Misread "void f()" "const;" ∧ Misread "void f(int a = \x7b1\x7d," "int b);" := by
  let void : TypeExpr := .ofTokens ["void"]
  let int : TypeExpr := .ofTokens ["int"]
  refine ⟨⟨broken_pair (by decide) (by decide) (by decide),
      ⟨.function ⟨none, some void, "f", [], true, false, false, none⟩ true, _, ?_, rfl, ?_⟩, ?_⟩,
    ⟨broken_pair (by decide) (by decide) (by decide),
      ⟨.function ⟨none, some void, "f", [⟨int, some "a"⟩, ⟨int, some "b"⟩], false, false, false,
        none⟩ true, _, ?_, rfl, ?_⟩, ?_⟩⟩
  all_goals decide +kernel

end HeaderOutline
