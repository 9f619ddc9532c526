import HeaderOutline.Proofs.EnumReading
/-!
# Readings that pass lexemes

`Passes fs ls ks gs ms`: however the lexemes `ls` are laid out, a reading that has them before it in
the scopes `fs` comes to the lexemes `ms` in the scopes `gs` and makes the calls `ks` on the way.

Results:
* `passes_group`: lexemes on one line that a rule matches.
* `passes_opening`, `passes_closing`, `passes_classEnd`: braces.
* `passes_declaration`: enums, functions and their bodies.
* `passes_label`, `passes_constructor`, `passes_destructor`, `passes_classHead`, `passes_nameSpace`.
-/
namespace HeaderOutline
open Text Declaration

/-- However `ls` is laid out, a reading comes from there to `ms`. -/
def Passes (fs : ScopeStack) (ls : List Lexeme) (ks : List Call) (gs : ScopeStack)
    (ms : List Lexeme) : Prop :=
  ∀ last cs, Laid last ls cs → ∃ last' ds, Laid last' ms ds ∧ Leads fs cs ks gs ds

variable {fs gs hs : ScopeStack} {ls ms ns : List Lexeme} {ks ks' : List Call}

namespace Passes

theorem refl (fs : ScopeStack) (ls : List Lexeme) : Passes fs ls [] fs ls :=
  fun last cs h => ⟨last, cs, h, .refl fs cs⟩

theorem trans (h : Passes fs ls ks gs ms) (h' : Passes gs ms ks' hs ns) :
    Passes fs ls (ks ++ ks') hs ns := fun last cs hl => by
  obtain ⟨last', ds, hd, h1⟩ := h last cs hl
  obtain ⟨last'', es, he, h2⟩ := h' last' ds hd
  exact ⟨last'', es, he, h1.trans h2⟩

end Passes

/-! ## Groups -/

theorem unbroken_calm (h : AllCalm ls) : Laid.Unbroken ls :=
  (Laid.unbroken_of_calm h (x := .mark ";") (by decide)).left_of_append

/-- Lexemes on one line that a rule matches, but for blanks behind them. -/
theorem passes_group (rule : Rule) {k : Construct} (hne : ls ≠ []) (hl : ∀ l ∈ ls, l.Firm)
    (hu : Laid.Unbroken ls)
    (hm : ∀ last ds, Laid last ms ds → ∃ rest,
      Rule.match? fs.context (fs.topClass?.map (·.name)) (joined ls ++ lineEnd ds) =
        some (rule, k, rest) ∧ trimStart rest = trimStart (lineEnd ds))
    (hk : k.Does fs ks gs) : Passes fs (ls ++ ms) ks gs ms := fun last cs h => by
  obtain ⟨sep, ds, last', rfl, hs, hd⟩ := h.group hne hu
  obtain ⟨rest, hmatch, hrest⟩ := hm last' ds hd
  exact ⟨last', ds, hd, (leads_of_match_blank (solid_joined hne hl) hmatch hrest hk).blank hs⟩

/-- Calm lexemes and a last one on a line, such as a declaration with its semicolon. -/
theorem passes_ended {x : Lexeme} (rule : Rule) {k : Construct} (hl : AllCalm ls) (hx : x.Firm)
    (hbrace : x ≠ .mark "\x7b")
    (hm : ∀ text, Parted text →
      Rule.match? fs.context (fs.topClass?.map (·.name)) (joined (ls ++ [x]) ++ text) =
        some (rule, k, text))
    (hk : k.Does fs ks gs) : Passes fs (ls ++ x :: ms) ks gs ms := by
  have h : Passes fs ((ls ++ [x]) ++ ms) ks gs ms := by
    refine passes_group rule (by simp) ?_ (Laid.unbroken_of_calm hl hbrace)
      (fun last ds hd => ⟨_, hm _ hd.parted_lineEnd, rfl⟩) hk
    intro l hm
    rcases List.mem_append.mp hm with h | h
    · exact (hl l h).1
    · rw [List.mem_singleton.mp h]
      exact hx
  simpa using h

/-! ## What stands ahead -/

/-- A firm lexeme other than a semicolon comes next, or none. -/
def Starts (ls : List Lexeme) : Prop :=
  ∀ l ∈ ls.head?, l.Firm ∧ l.text ≠ ";"

theorem noSemicolon_of_lineEnd {cs : List Char} (h : lineEnd cs = []) : NoSemicolon cs :=
  fun t ht => by
    rw [h, Token.tokens_of_next?_none rfl] at ht
    cases ht

theorem Starts.noSemicolon {last : Lexeme} {cs : List Char} (h : Starts ls)
    (hl : Laid last ls cs) : NoSemicolon cs := by
  cases ls with
  | nil =>
    cases hl
    exact noSemicolon_of_lineEnd rfl
  | cons l ls =>
    obtain ⟨hfirm, hne⟩ := h l rfl
    intro t ht
    rw [hl.head_lineEnd hfirm t ht]
    exact hne

theorem opensBody_of_laid {last : Lexeme} {cs : List Char}
    (h : Laid last (.mark "\x7b" :: ls) cs) : OpensBody (Token.tokens (lineEnd cs)) :=
  h.head_lineEnd (by decide)

theorem braceAhead_of_laid {last : Lexeme} {cs : List Char}
    (h : Laid last (.mark "\x7b" :: ls) cs) : BraceAhead (lineEnd cs) := by
  obtain ⟨sep, ds, rfl, hs, -⟩ := h.uncons
  rcases hs with rfl | ⟨rfl, -⟩
  · rw [Laid.lineEnd_space (by decide)]
    exact .inr ⟨lineEnd ds, rfl⟩
  · exact .inl rfl

/-! ## Braces -/

theorem passes_opening (hk : Construct.openBrace.Does fs ks gs) :
    Passes fs (.mark "\x7b" :: ms) ks gs ms := fun last cs h => by
  obtain ⟨sep, ds, rfl, hs, hd⟩ := h.uncons
  exact ⟨_, ds, hd, (leads_opening (.nil fs) hk).blank (Laid.isBlank_sep hs)⟩

theorem passes_closing (hm : Starts ms) (hk : Construct.closeBrace.Does fs ks gs) :
    Passes fs (.mark "\x7d" :: ms) ks gs ms := fun last cs h => by
  obtain ⟨sep, ds, rfl, hs, hd⟩ := h.uncons
  have hc := leads_closing (.nil fs) .nil (hm.noSemicolon hd) hk
  exact ⟨_, ds, hd, hc.blank (Laid.isBlank_sep hs)⟩

/-- The brace and the semicolon at the end of a class, on one line or on two. -/
theorem passes_classEnd (hm : Starts ms) (hk : Construct.closeBrace.Does fs ks gs) :
    Passes fs (.mark "\x7d" :: .mark ";" :: ms) ks gs ms := fun last cs h => by
  obtain ⟨sep, cs, rfl, hs, h⟩ := h.uncons
  obtain ⟨sep', ds, rfl, hs', hd⟩ := h.uncons
  have hv := hm.noSemicolon hd
  refine ⟨_, ds, hd, Leads.blank (Laid.isBlank_sep hs) ?_⟩
  rcases hs' with rfl | ⟨rfl, -⟩
  · have hgap : Semicolons [' ', ';'] :=
      @Semicolons.cons [' '] [] (fun c hc => by rw [List.mem_singleton.mp hc]; decide) .nil
    exact leads_closing (.nil fs) hgap hv hk
  · have hn : NoSemicolon ('\n' :: ';' :: ds) := noSemicolon_of_lineEnd rfl
    have hsemi : Leads gs ('\n' :: ';' :: ds) [] gs ds :=
      (leads_semicolon (.nil gs)).blank (by decide)
    have hclose := (leads_closing (.nil fs) .nil hn hk).trans hsemi
    rw [List.append_nil] at hclose
    exact hclose

/-! ## Declarations -/

theorem passes_enum {e : EnumSyntax} (hc : fs.context.holdsDeclarations) :
    Passes fs (e.lexemes ++ ms) [(.enum e.value, fs)] fs ms :=
  fun _ _ h => leads_enum hc h

theorem passes_function {f : FunctionSyntax} (hc : fs.context.holdsDeclarations) :
    Passes fs (f.lexemes ++ .mark ";" :: ms) [(.functionDecl f.signature, fs)] fs ms := by
  refine passes_ended .function (calm_function f) (by decide) (by decide) (fun text hp => ?_)
    (Construct.does_functionDecl f.signature)
  exact match?_function _ hc (allPlain_cons.mpr ⟨by decide, allPlain_nil⟩) hp fun ts h =>
    function?_declared h

theorem passes_body {name : String} {body : BodySyntax} (hm : Starts ms) :
    Passes (.functionBody name true :: fs) (body.lexemes ++ .mark "\x7d" :: ms) [] fs ms :=
  fun last cs h => by
  obtain ⟨as, bs, last', rfl, ha, hb⟩ := h.split
  obtain ⟨sep, ds, rfl, hs, hd⟩ := hb.uncons
  have hblank : (isQuote sep = false ∧ sep ≠ '#') ∧ bracesAmong [sep] = [] := by
    rcases hs with rfl | ⟨rfl, -⟩ <;> exact ⟨by decide, rfl⟩
  have htame : Tame (as ++ [sep]) := fun c hc => by
    rcases List.mem_append.mp hc with hc | hc
    · exact ha.tame body.plain c hc
    · rw [List.mem_singleton.mp hc]
      exact hblank.1
  have hcloses : Closes 0 (as ++ [sep]) := by
    rw [Closes, bracesAmong_append, hblank.2, List.append_nil, ha.bracesAmong body.plain]
    simpa [Brace.Balanced] using body.balanced
  have hl : Leads (insideBody 0 name fs) ((as ++ [sep]) ++ '\x7d' :: ds) [] fs ds :=
    leads_body 0 htame hcloses (hm.noSemicolon hd)
  refine ⟨_, ds, hd, ?_⟩
  rw [List.append_assoc] at hl
  exact hl

theorem passes_definition {f : FunctionSyntax} {body : BodySyntax}
    (hc : fs.context.holdsDeclarations) (hm : Starts ms) :
    Passes fs (f.lexemes ++ .mark "\x7b" :: (body.lexemes ++ .mark "\x7d" :: ms))
      [(.functionDef f.signature, fs)] fs ms := by
  have hf : f.lexemes ≠ [] := by simp [FunctionSyntax.lexemes]
  have hhead : Passes fs (f.lexemes ++ .mark "\x7b" :: (body.lexemes ++ .mark "\x7d" :: ms))
      [(.functionDef f.signature, fs)] (.functionBody f.name.text false :: fs)
      (.mark "\x7b" :: (body.lexemes ++ .mark "\x7d" :: ms)) := by
    refine passes_group .function hf (fun l hl => (calm_function f l hl).1)
      (unbroken_calm (calm_function f)) (fun last ds hd => ⟨lineEnd ds, ?_, rfl⟩)
      (Construct.does_functionDef f.signature)
    have hread : ∀ ts, Spells (Token.tokens (lineEnd ds)) (f.lexemes ++ []) ts →
        function? ts = some (⟨f.signature, false⟩, Token.tokens (lineEnd ds)) := fun ts h => by
      rw [List.append_nil] at h
      exact function?_defined h (opensBody_of_laid hd)
    have hmatch :=
      match?_function (fs.topClass?.map (·.name)) hc allPlain_nil hd.parted_lineEnd hread
    rwa [List.append_nil] at hmatch
  have hopen : Construct.openBrace.Does (.functionBody f.name.text false :: fs) []
      (.functionBody f.name.text true :: fs) := Construct.does_openBrace rfl
  exact (hhead.trans (passes_opening hopen)).trans (passes_body hm)

/-- What a class and a namespace may both hold. -/
theorem passes_declaration {d : DeclSyntax} (hc : fs.context.holdsDeclarations) (hm : Starts ms) :
    Passes fs (d.lexemes ++ ms) [(d.event, fs)] fs ms := by
  cases d with
  | enum e => exact passes_enum hc
  | function f =>
    rw [DeclSyntax.lexemes, List.append_assoc]
    exact passes_function hc
  | definition f body =>
    rw [DeclSyntax.lexemes, List.append_assoc, List.cons_append, List.append_assoc]
    exact passes_definition hc hm

/-! ## Classes and namespaces -/

variable {c : ClassBody} {n : FreeName}

theorem passes_label {level : AccessLevel} :
    Passes (.classBody c :: fs) (.word level.keyword :: .mark ":" :: ms) []
      (.classBody { c with access := level } :: fs) ms := by
  have hword : AllCalm [.word level.keyword] :=
    allCalm_cons.mpr ⟨by cases level <;> decide, allCalm_nil⟩
  exact passes_ended .access hword (by decide) (by decide) (fun text hp => match?_label hp)
    (Construct.does_access level)

theorem passes_constructor {ps : ParameterList} (hn : c.name = n.text) :
    Passes (.classBody c :: fs) (n.lexeme :: (ps.lexemes ++ .mark ";" :: ms))
      [(.constructorDecl c.name ps.values, .classBody c :: fs)] (.classBody c :: fs) ms := by
  have hcalm : AllCalm (n.lexeme :: ps.lexemes) :=
    allCalm_cons.mpr ⟨calm_name n, calm_parameters ps⟩
  rw [hn]
  refine passes_ended .constructor hcalm (by decide) (by decide) (fun text hp => ?_)
    (Construct.does_constructorDecl ⟨n.text, ps.values⟩)
  show Rule.match? .classBody (some c.name) _ = _
  rw [hn]
  exact match?_constructor hp

theorem passes_destructor (hn : c.name = n.text) :
    Passes (.classBody c :: fs) (.mark "~" :: n.lexeme :: .mark "(" :: .mark ")" :: .mark ";" :: ms)
      [(.destructorDecl ("~" ++ c.name), .classBody c :: fs)] (.classBody c :: fs) ms := by
  have hcalm : AllCalm [.mark "~", n.lexeme, .mark "(", .mark ")"] := by
    simp only [allCalm_cons]
    exact ⟨by decide, calm_name n, by decide, by decide, allCalm_nil⟩
  rw [hn]
  exact passes_ended .destructor hcalm (by decide) (by decide)
    (fun text hp => match?_destructor hp) (Construct.does_destructorDecl _)

/-- The head of a class and its brace. -/
theorem passes_classHead {head : ClassSyntax} (hc : fs.context.holdsDeclarations) :
    Passes fs (head.lexemes ++ .mark "\x7b" :: ms) (head.calls fs) (.classBody head.body :: fs)
      ms := by
  have hne : head.lexemes ≠ [] := by simp [ClassSyntax.lexemes]
  have hcalm := calm_classHead head
  have hhead : Passes fs (head.lexemes ++ .mark "\x7b" :: ms) [(.classHead head.head, fs)]
      (.classBody (.ofHead head.head.name head.head.key head.head.template) :: fs)
      (.mark "\x7b" :: ms) :=
    passes_group .classHead hne (fun l hl => (hcalm l hl).1) (unbroken_calm hcalm)
      (fun last ds hd =>
        ⟨lineEnd ds, match?_classHead hc hd.parted_lineEnd (opensBody_of_laid hd), rfl⟩)
      (Construct.does_classHead head.head)
  exact hhead.trans (passes_opening (Construct.does_openBrace rfl))

/-- The head of a namespace and its brace. -/
theorem passes_nameSpace {name : Option FreeName} (hc : fs.context = .nameSpace) :
    Passes fs (.word "namespace" :: (name.toList.map (·.lexeme) ++ .mark "\x7b" :: ms))
      [(.nameSpace ((name.map (·.text)).getD ""), fs),
        (.nameSpaceStart ((name.map (·.text)).getD ""),
          .nameSpace ((name.map (·.text)).getD "") true :: fs)]
      (.nameSpace ((name.map (·.text)).getD "") true :: fs) ms := by
  have hcalm : AllCalm (.word "namespace" :: name.toList.map (·.lexeme)) := by
    refine allCalm_cons.mpr ⟨by decide, fun l hl => ?_⟩
    obtain ⟨n, -, rfl⟩ := List.mem_map.mp hl
    exact calm_name n
  have hhead : Passes fs ((.word "namespace" :: name.toList.map (·.lexeme)) ++ .mark "\x7b" :: ms)
      [(.nameSpace ((name.map (·.text)).getD ""), fs)]
      (.nameSpace ((name.map (·.text)).getD "") false :: fs) (.mark "\x7b" :: ms) := by
    refine passes_group .nameSpace (by simp) (fun l hl => (hcalm l hl).1) (unbroken_calm hcalm)
      (fun last ds hd => ?_) (Construct.does_nameSpace _)
    rw [hc]
    exact match?_nameSpace hd.parted_lineEnd (braceAhead_of_laid hd)
  exact hhead.trans (passes_opening (Construct.does_openBrace rfl))

end HeaderOutline
