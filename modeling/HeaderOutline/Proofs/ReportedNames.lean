import HeaderOutline.Proofs.EnumReading
import HeaderOutline.Proofs.LineAttribution
import HeaderOutline.Proofs.WrittenTypes
/-!
# The words in names

A name with parts is read with a look at its first part only: that is no reserved word. Whatever
word stands behind a mark `::` is taken for a later part, a reserved one and one of a built-in type
as well. So it is there that a keyword gets into a name that is reported or into the name of a type,
and otherwise only where a function is named by a word of a built-in type.

Results:
* `NamesRead.of_recognize?`: what is known of the names in a signature that a rule recognizes.
* `reported_names`: whether the names in a reported signature are free of keywords.
-/
namespace HeaderOutline
open Text Declaration

variable {ts us rest : List Token}

/-! ## Parts of names -/

/-- The pieces of a text between colons, without the empty ones. -/
def pieces (cs : List Char) : List (List Char) :=
  (split ':' cs).filter (!·.isEmpty)

/-- The parts of a name between its marks `::`. -/
def components (name : String) : List String :=
  (pieces name.toList).map String.ofList

def IsWord (w : String) : Prop :=
  w.toList ≠ [] ∧ ∀ c ∈ w.toList, isNameChar c = true

/-- Words with `::` before each. -/
def laterText : List String → String
  | [] => ""
  | w :: ws => "::" ++ w ++ laterText ws

/-- The tokens have the word right behind a mark `::`. -/
def BehindColons (ts : List Token) (w : String) : Prop :=
  ∃ c n, [c, n] <:+: ts ∧ c.text = "::" ∧ n.text = w

theorem BehindColons.of_suffix {w : String} (h : BehindColons us w) (hs : us <:+ ts) :
    BehindColons ts w := by
  obtain ⟨c, n, hi, hc, hn⟩ := h
  exact ⟨c, n, hi.trans hs.isInfix, hc, hn⟩

theorem IsWord.colon {w : String} (h : IsWord w) : ':' ∉ w.toList := fun hm =>
  absurd (h.2 ':' hm) (by decide)

theorem pieces_word {w : String} (h : IsWord w) : pieces w.toList = [w.toList] := by
  rw [pieces, split_of_notMem h.colon]
  simp [h.1]

theorem pieces_append {w : String} (h : IsWord w) (cs : List Char) :
    pieces (w.toList ++ ':' :: ':' :: cs) = w.toList :: pieces cs := by
  rw [pieces, split_append h.colon, ← List.nil_append (':' :: cs), split_append List.not_mem_nil]
  simp [h.1, pieces]

theorem pieces_rooted (cs : List Char) : pieces (':' :: ':' :: cs) = pieces cs := by
  rw [← List.nil_append (':' :: ':' :: cs), pieces, split_append List.not_mem_nil,
    ← List.nil_append (':' :: cs), split_append List.not_mem_nil]
  rfl

theorem pieces_later {w : String} {ws : List String} (hw : IsWord w) (hws : ∀ v ∈ ws, IsWord v) :
    pieces (w.toList ++ (laterText ws).toList) = (w :: ws).map String.toList := by
  induction ws generalizing w with
  | nil => simpa [laterText] using pieces_word hw
  | cons v ws ih =>
    have hv := ih (hws v List.mem_cons_self) fun u hu => hws u (List.mem_cons_of_mem _ hu)
    rw [laterText, String.toList_append, String.toList_append, List.append_assoc]
    show pieces (w.toList ++ ':' :: ':' :: (v.toList ++ (laterText ws).toList)) = _
    rw [pieces_append hw, hv]
    rfl

theorem components_word {w : String} (h : IsWord w) : components w = [w] := by
  rw [components, pieces_word h, List.map_singleton, String.ofList_toList]

theorem components_join (rooted : Bool) {w : String} {ws : List String} (hw : IsWord w)
    (hws : ∀ v ∈ ws, IsWord v) :
    components ((if rooted then "::" else "") ++ w ++ laterText ws) = w :: ws := by
  have hpieces := pieces_later hw hws
  have hback : ((w :: ws).map String.toList).map String.ofList = w :: ws := by
    rw [List.map_map]
    exact List.map_id'' (fun v => String.ofList_toList) (w :: ws)
  rw [components, String.toList_append, String.toList_append, List.append_assoc]
  cases rooted with
  | false =>
    show (pieces (w.toList ++ (laterText ws).toList)).map String.ofList = _
    rw [hpieces, hback]
  | true =>
    show (pieces (':' :: ':' :: (w.toList ++ (laterText ws).toList))).map String.ofList = _
    rw [pieces_rooted, hpieces, hback]

/-! ## Names -/

/-- The text is made of words, parted by marks `::`. -/
def IsQualified (text : String) : Prop :=
  ∃ (rooted : Bool) (w : String) (ws : List String),
    text = (if rooted then "::" else "") ++ w ++ laterText ws ∧ IsWord w ∧ ∀ v ∈ ws, IsWord v

/-- The first part of the text is no reserved word, and every later one stands right behind a mark
`::` among the tokens. -/
structure PartsFrom (ts : List Token) (text : String) : Prop where
  first : ∀ w ∈ (components text).head?, isReserved w = false
  later : ∀ w ∈ (components text).tail, BehindColons ts w

theorem PartsFrom.of_suffix {text : String} (h : PartsFrom us text) (hs : us <:+ ts) :
    PartsFrom ts text :=
  ⟨h.first, fun w hw => (h.later w hw).of_suffix hs⟩

theorem Worded.isWord {t : Token} (h : Worded ts) (ht : t ∈ ts) (hn : t.isName = true) :
    IsWord t.text := by
  simp only [Token.isName, Bool.and_eq_true, beq_iff_eq] at hn
  exact ⟨h.ne_nil t ht, h.lexical t ht hn.1⟩

theorem exists_later (hw : Worded ts) : ∃ ws, (laterParts ts).1 = laterText ws ∧
    ∀ v ∈ ws, IsWord v ∧ BehindColons ts v := by
  fun_induction laterParts ts with
  | case1 c n ts hcn parts rest heq ih =>
    have hsuf : ts <:+ c :: n :: ts := (List.suffix_cons n ts).trans (List.suffix_cons c _)
    obtain ⟨ws, hparts, hws⟩ := ih (hw.of_suffix hsuf)
    rw [heq] at hparts
    refine ⟨n.text :: ws, congrArg ("::" ++ n.text ++ ·) hparts, fun v hv => ?_⟩
    rcases List.mem_cons.mp hv with rfl | hv
    · exact ⟨hw.isWord (by simp) hcn.2, c, n, ⟨[], ts, rfl⟩, hcn.1, rfl⟩
    · exact ⟨(hws v hv).1, (hws v hv).2.of_suffix hsuf⟩
  | case2 => exact ⟨[], rfl, by simp⟩
  | case3 => exact ⟨[], rfl, by simp⟩

theorem partsFrom_of_qualifiedName? (hw : Worded ts) {name : String}
    (h : qualifiedName? ts = some (name, rest)) : IsQualified name ∧ PartsFrom ts name := by
  obtain ⟨⟨first, behind⟩, hf, heq⟩ := Option.map_eq_some_iff.mp h
  cases heq
  obtain ⟨n, hskip, rfl, hname, hres⟩ := freeName?_eq_some hf
  have hsuf : n :: behind <:+ ts := hskip ▸ suffix_skipOptional "::" ts
  have hn := (hw.of_suffix hsuf).isWord List.mem_cons_self hname
  have hbehind := (List.suffix_cons n behind).trans hsuf
  obtain ⟨ws, hparts, hws⟩ := exists_later (hw.of_suffix hbehind)
  have hcomponents := components_join (startsWith "::" ts) hn fun v hv => (hws v hv).1
  refine ⟨⟨startsWith "::" ts, n.text, ws, by rw [hparts], hn, fun v hv => (hws v hv).1⟩, ?_, ?_⟩
  · rw [hparts, hcomponents]
    rintro w ⟨⟩
    exact hres
  · rw [hparts, hcomponents]
    exact fun w hw => (hws w hw).2.of_suffix hbehind

/-! ## Types -/

namespace TypeExpr

/-- The pieces of text of a type, those of its groups included. -/
def texts : TypeExpr → List String
  | nil => []
  | token text rest => text :: rest.texts
  | group inner rest => inner.texts ++ rest.texts

@[simp] theorem texts_append (a b : TypeExpr) : (a.append b).texts = a.texts ++ b.texts := by
  induction a with
  | nil => rfl
  | token text rest ih => rw [append, texts, ih, texts, List.cons_append]
  | group inner rest _ ih => rw [append, texts, ih, texts, List.append_assoc]

@[simp] theorem texts_ofTokens (ws : List String) : (ofTokens ws).texts = ws := by
  induction ws with
  | nil => rfl
  | cons w ws ih => exact congrArg (w :: ·) ih

@[simp] theorem texts_ofGroups (es : List TypeExpr) : (ofGroups es).texts = es.flatMap texts := by
  induction es with
  | nil => rfl
  | cons e es ih => exact congrArg (e.texts ++ ·) ih

end TypeExpr

/-- But for the word `const`, the texts are read part by part from the tokens. -/
def TextsFrom (ts : List Token) (texts : List String) : Prop :=
  ∀ text ∈ texts, text = "const" ∨ PartsFrom ts text

theorem TextsFrom.of_suffix {texts : List String} (h : TextsFrom us texts) (hs : us <:+ ts) :
    TextsFrom ts texts := fun text ht => (h text ht).imp_right fun hp => hp.of_suffix hs

theorem TextsFrom.append {as bs : List String} (ha : TextsFrom ts as) (hb : TextsFrom ts bs) :
    TextsFrom ts (as ++ bs) := fun text ht =>
  (List.mem_append.mp ht).elim (ha text) (hb text)

theorem partsFrom_single {text : String} (hc : components text = [text])
    (hr : isReserved text = false) : PartsFrom ts text := by
  refine ⟨?_, ?_⟩
  · rw [hc]
    rintro w ⟨⟩
    exact hr
  · rw [hc]
    exact fun w hw => by cases hw

theorem textsFrom_marks {texts : List String}
    (h : ∀ text ∈ texts, text ∈ ["<", ">", "*", "&", "..."]) : TextsFrom ts texts :=
  fun text ht => by
  have hall : ∀ mark ∈ ["<", ">", "*", "&", "..."],
      components mark = [mark] ∧ isReserved mark = false := by decide
  exact .inr (partsFrom_single (hall text (h text ht)).1 (hall text (h text ht)).2)

theorem textsFrom_natives {natives : List Token} (h : ∀ t ∈ natives, isNative t.text = true) :
    TextsFrom ts (natives.map (·.text)) := fun text ht => by
  have hall : ∀ w ∈ nativeWords, components w = [w] ∧ isReserved w = false := by decide
  obtain ⟨t, hm, rfl⟩ := List.mem_map.mp ht
  have hw := hall t.text (List.contains_iff_mem.mp (h t hm))
  exact .inr (partsFrom_single hw.1 hw.2)

theorem textsFrom_of_bareType? (hw : Worded ts) {front : List String × Bool}
    (h : bareType? ts = some (front, rest)) : TextsFrom ts front.1 := by
  unfold bareType? at h
  split at h
  · obtain ⟨⟨name, behind⟩, hq, heq⟩ := Option.map_eq_some_iff.mp h
    cases heq
    intro text ht
    rw [List.mem_singleton.mp ht]
    exact .inr (partsFrom_of_qualifiedName? hw hq).2
  · next t natives hnatives =>
    cases h
    refine textsFrom_natives fun u hu => ?_
    rw [← hnatives] at hu
    exact List.mem_takeWhile_imp (p := fun t : Token => isNative t.text) hu

theorem textsFrom_of_typeFront? (hw : Worded ts) {front : List String × Bool}
    (h : typeFront? ts = some (front, rest)) : TextsFrom ts front.1 := by
  obtain ⟨⟨⟨texts, native⟩, behind⟩, hb, heq⟩ := Option.map_eq_some_iff.mp h
  cases heq
  have hsuf := suffix_skipOptional "const" ts
  have hbare := (textsFrom_of_bareType? (hw.of_suffix hsuf) hb).of_suffix hsuf
  simp only
  split
  · exact List.forall_mem_cons.mpr ⟨.inl rfl, hbare⟩
  · exact hbare

theorem textsFrom_typeMarks : TextsFrom ts (typeMarks us).1 := by
  obtain ⟨m, hm, -⟩ := typeMarks_eq us
  rw [hm]
  refine textsFrom_marks fun text ht => ?_
  rcases List.mem_append.mp ht with ht | ht <;> rw [List.eq_of_mem_replicate ht] <;> simp

theorem textsFrom_of_argument? (hw : Worded ts) {e : TypeExpr} (h : argument? ts = some (e, rest))
    (ht : ∀ f r, type? ts = some (f, r) → TextsFrom ts f.texts) : TextsFrom ts e.texts := by
  cases ts with
  | nil => rw [argument?] at h; cases h
  | cons t ts =>
    rw [argument?] at h
    split at h
    · next hn =>
      cases h
      simp only [Token.isNumber, Token.startsWithDigit, Bool.and_eq_true, beq_iff_eq] at hn
      have hword : IsWord t.text :=
        ⟨hw.ne_nil t List.mem_cons_self, hw.lexical t List.mem_cons_self hn.1⟩
      have hres : isReserved t.text = false := by
        have hall : ∀ w ∈ reservedWords, w.toList.head?.any Token.isDigit = false := by decide
        by_contra hr
        rw [Bool.not_eq_false] at hr
        rw [hall t.text (List.contains_iff_mem.mp hr)] at hn
        cases hn.2
      intro text hmem
      rw [TypeExpr.texts_ofTokens] at hmem
      rw [List.mem_singleton.mp hmem]
      exact .inr (partsFrom_single (components_word hword) hres)
    · exact ht e rest h

theorem textsFrom_of_type? (hw : Worded ts) {e : TypeExpr} (h : type? ts = some (e, rest)) :
    TextsFrom ts e.texts := by
  induction hn : ts.length using Nat.strongRecOn generalizing ts e rest with
  | ind n ih =>
    cases hf : typeFront? ts with
    | none => rw [type?, hf] at h; cases h
    | some found =>
      obtain ⟨⟨front, native⟩, behind⟩ := found
      have hadv := advances_typeFront? hf
      have hfront := textsFrom_of_typeFront? hw hf
      cases ha : argumentsOf? native behind with
      | none =>
        rw [type?, hf] at h
        simp only [ha] at h
        cases h
        simpa using hfront.append textsFrom_typeMarks
      | some inner =>
        have hinner := suffix_of_argumentsOf? ha
        have hlt : inner.length < ts.length := by omega
        rw [type?, hf] at h
        simp only [ha, if_pos hlt] at h
        obtain ⟨⟨es, closed⟩, hargs, heq⟩ := Option.map_eq_some_iff.mp h
        cases heq
        -- Every argument lies behind the opening bracket, so its tokens are fewer.
        have hes : ∀ e ∈ es, TextsFrom ts e.texts := forall_of_arguments? (fun us e r hu he => by
          have hus := hu.trans (hinner.1.trans hadv.1)
          have hlen := hu.length_le
          refine TextsFrom.of_suffix (textsFrom_of_argument? (hw.of_suffix hus) he fun f r hf => ?_)
            hus
          exact ih us.length (by omega) (hw.of_suffix hus) hf rfl) hargs
        have hgroups : TextsFrom ts (es.flatMap TypeExpr.texts) := fun text ht => by
          obtain ⟨e, he, ht⟩ := List.mem_flatMap.mp ht
          exact hes e he text ht
        have hopen : TextsFrom ts ["<"] := textsFrom_marks (by simp)
        have hclose : TextsFrom ts [">"] := textsFrom_marks (by simp)
        simpa using hfront.append
          (hopen.append (hgroups.append (hclose.append textsFrom_typeMarks)))

/-! ## Signatures -/

def Signature.types (f : Signature) : List TypeExpr :=
  f.returnType.toList ++ f.params.map (·.type)

theorem textsFrom_of_parameter? (hw : Worded ts) {p : Parameter}
    (h : parameter? ts = some (p, rest)) : TextsFrom ts p.type.texts := by
  unfold parameter? at h
  split at h
  · cases h
    exact textsFrom_marks (by simp)
  · obtain ⟨⟨type, behind⟩, ht, heq⟩ := Option.map_eq_some_iff.mp h
    cases heq
    exact textsFrom_of_type? hw ht

theorem textsFrom_of_parametersAndTail? (hw : Worded ts) {ps : List Parameter} {tail : Tail}
    (h : parametersAndTail? ts = some ((ps, tail), rest)) :
    ∀ p ∈ ps, TextsFrom ts p.type.texts := by
  simp only [parametersAndTail?, Option.bind_eq_bind, Option.bind_eq_some_iff, Option.some.injEq,
    Prod.mk.injEq] at h
  obtain ⟨⟨_, us⟩, h, _, -, ⟨rfl, -⟩, -⟩ := h
  unfold parameters? at h
  split at h
  · cases h
    exact fun p hp => absurd hp List.not_mem_nil
  · exact (forall_of_commaList advances_parameter? (fun us p r hus hp =>
      (textsFrom_of_parameter? (hw.of_suffix hus) hp).of_suffix hus) h).2

/-- What is known of the names in a signature that a rule reads from the tokens. An operator has the
name that its symbol gives it. -/
structure NamesRead (ts : List Token) (rule : Rule) (f : Signature) : Prop where
  sort : rule = .callOperator ∨ rule = .operator ∨ rule = .function
  callOperator : rule = .callOperator → f.name = "operator()"
  operator : rule = .operator → ∃ symbol, operatorName? symbol = some f.name
  function : rule = .function → IsQualified f.name ∧ PartsFrom ts f.name
  types : ∀ e ∈ f.types, TextsFrom ts e.texts

/-- The types in a signature come from the tokens that its return type and its parameters are read
from. -/
theorem types_of_assemble (hw : Worded ts) {front : Front} {type : Option TypeExpr} {name : String}
    {ps : List Parameter} {tail : Tail} {us vs r : List Token} (hus : us <:+ ts) (hvs : vs <:+ ts)
    (ht : ∀ e ∈ type, ∃ v, type? us = some (e, v))
    (hp : parametersAndTail? vs = some ((ps, tail), r)) :
    ∀ e ∈ (assemble front type name ps tail).item.types, TextsFrom ts e.texts := by
  intro e he
  rcases List.mem_append.mp he with he | he
  · obtain ⟨v, hv⟩ := ht e (Option.mem_toList.mp he)
    exact (textsFrom_of_type? (hw.of_suffix hus) hv).of_suffix hus
  · obtain ⟨p, hm, rfl⟩ := List.mem_map.mp he
    exact (textsFrom_of_parametersAndTail? (hw.of_suffix hvs) hp p hm).of_suffix hvs

theorem namesRead_of_function? (hw : Worded ts) {d : Declared Signature}
    (h : function? ts = some (d, rest)) : NamesRead ts .function d.item := by
  simp only [function?, Option.bind_eq_bind, Option.bind_eq_some_iff, Option.some.injEq,
    Prod.mk.injEq] at h
  obtain ⟨⟨front, r1⟩, h1, ⟨type, r2⟩, h2, ⟨name, r3⟩, h3, r4, h4, ⟨⟨params, tail⟩, r5⟩, h5, rfl,
    -⟩ := h
  have hs1 := suffix_of_front? h1
  have hs2 := (advances_type? h2).1.trans hs1
  have hs4 := (suffix_of_skip? h4).1.trans ((advances_qualifiedName? h3).1.trans hs2)
  obtain ⟨hqualified, hparts⟩ := partsFrom_of_qualifiedName? (hw.of_suffix hs2) h3
  refine ⟨.inr (.inr rfl), by simp, by simp, fun _ => ⟨hqualified, hparts.of_suffix hs2⟩,
    types_of_assemble hw hs1 hs4 (fun e he => ?_) h5⟩
  cases he
  exact ⟨r2, h2⟩

theorem namesRead_of_callOperator? (hw : Worded ts) {d : Declared Signature}
    (h : callOperator? ts = some (d, rest)) : NamesRead ts .callOperator d.item := by
  simp only [callOperator?, Option.bind_eq_bind, Option.bind_eq_some_iff, Option.some.injEq,
    Prod.mk.injEq] at h
  obtain ⟨⟨front, r1⟩, h1, ⟨type, r2⟩, h2, r3, h3, r4, h4, r5, h5, r6, h6, ⟨⟨params, tail⟩, r7⟩, h7,
    rfl, -⟩ := h
  have hs1 := suffix_of_front? h1
  have hs2 := (advances_type? h2).1.trans hs1
  have hs6 := (suffix_of_skip? h6).1.trans ((suffix_of_skip? h5).1.trans
    ((suffix_of_skip? h4).1.trans ((suffix_of_skip? h3).1.trans hs2)))
  refine ⟨.inl rfl, fun _ => rfl, by simp, by simp,
    types_of_assemble hw hs1 hs6 (fun e he => ?_) h7⟩
  cases he
  exact ⟨r2, h2⟩

theorem namesRead_of_operator? (hw : Worded ts) {d : Declared Signature}
    (h : operator? ts = some (d, rest)) : NamesRead ts .operator d.item := by
  simp only [operator?, Option.bind_eq_bind, Option.bind_eq_some_iff, Option.some.injEq,
    Prod.mk.injEq] at h
  obtain ⟨⟨front, r1⟩, h1, r3, h3, name, hname, r4, h4, ⟨⟨params, tail⟩, r5⟩, h5, rfl, -⟩ := h
  have hs1 := suffix_of_front? h1
  have hs4 := (suffix_of_skip? h4).1.trans ((List.dropWhile_suffix _).trans
    ((suffix_of_skip? h3).1.trans ((suffix_operatorType r1).trans hs1)))
  refine ⟨.inr (.inl rfl), by simp, fun _ => ⟨_, hname⟩, by simp,
    types_of_assemble hw hs1 hs4 (fun e he => ?_) h5⟩
  unfold operatorType at he
  split at he
  · next type r ht =>
    split at he
    · cases he
      exact ⟨r, ht⟩
    · cases he
  · cases he

/-- The names in a signature that a rule recognizes are read part by part. -/
theorem NamesRead.of_recognize? {className : Option String} {cs rest : List Char} {rule : Rule}
    {f : Signature} {terminated : Bool}
    (h : Rule.recognize? className cs rule = some (.function f terminated, rest)) :
    NamesRead (Token.tokens cs) rule f := by
  have hw := worded_tokens cs
  cases Rule.makes_of_recognize? h with
  | callOperator =>
    obtain ⟨⟨d, r⟩, hd, heq⟩ := Option.map_eq_some_iff.mp h
    cases heq
    exact namesRead_of_callOperator? hw hd
  | operator =>
    obtain ⟨⟨d, r⟩, hd, heq⟩ := Option.map_eq_some_iff.mp h
    cases heq
    exact namesRead_of_operator? hw hd
  | function =>
    obtain ⟨⟨d, r⟩, hd, heq⟩ := Option.map_eq_some_iff.mp h
    cases heq
    exact namesRead_of_function? hw hd

/-! ## Keywords -/

/-- No part of the name of a function is a reserved word or a word of a built-in type, and no part
of the name of a type in the signature is a reserved word. The name of an operator is no such name.
-/
structure KeywordFree (rule : Rule) (f : Signature) : Prop where
  name : rule = .function → ∀ w ∈ components f.name, isReserved w = false ∧ isNative w = false
  types : ∀ e ∈ f.types, ∀ text ∈ e.texts, text = "const" ∨
    ∀ w ∈ components text, isReserved w = false

/-- The parts of names that are read without a look at them are free of keywords: the later parts,
and for a word of a built-in type also the first part of the name of a function. -/
structure UncheckedFree (rule : Rule) (f : Signature) : Prop where
  first : rule = .function → ∀ w ∈ (components f.name).head?, isNative w = false
  later : rule = .function → ∀ w ∈ (components f.name).tail,
    isReserved w = false ∧ isNative w = false
  types : ∀ e ∈ f.types, ∀ text ∈ e.texts, ∀ w ∈ (components text).tail, isReserved w = false

theorem forall_mem_iff {α : Type} {p : α → Prop} {xs : List α} :
    (∀ x ∈ xs, p x) ↔ (∀ x ∈ xs.head?, p x) ∧ ∀ x ∈ xs.tail, p x := by
  cases xs <;> simp

/-- Keywords get into a signature only where no look is taken at a part of a name. -/
theorem NamesRead.keywordFree_iff {rule : Rule} {f : Signature} (h : NamesRead ts rule f) :
    KeywordFree rule f ↔ UncheckedFree rule f := by
  constructor
  · rintro ⟨hname, htypes⟩
    refine ⟨fun hr w hw => ?_, fun hr w hw => ?_, fun e he text ht w hw => ?_⟩
    · exact (forall_mem_iff.mp (hname hr)).1 w hw |>.2
    · exact (forall_mem_iff.mp (hname hr)).2 w hw
    · rcases htypes e he text ht with rfl | hfree
      · exact absurd hw (by decide +revert)
      · exact (forall_mem_iff.mp hfree).2 w hw
  · rintro ⟨hfirst, hlater, htypes⟩
    refine ⟨fun hr => forall_mem_iff.mpr ⟨fun w hw => ?_, hlater hr⟩, fun e he text ht => ?_⟩
    · exact ⟨(h.function hr).2.first w hw, hfirst hr w hw⟩
    · exact (h.types e he text ht).imp_right fun hp =>
        forall_mem_iff.mpr ⟨hp.first, htypes e he text ht⟩

theorem exists_function_of_event? {k : Construct} {later : List SourceLine} {e : Event}
    {f : Signature} (h : k.event? later = some e) (hf : e = .functionDecl f ∨ e = .functionDef f) :
    ∃ terminated, k = .function f terminated := by
  cases k with
  | function g terminated =>
    refine ⟨terminated, ?_⟩
    cases terminated <;> rcases hf with rfl | rfl <;> cases h <;> rfl
  | constructor _ terminated | destructor _ terminated =>
    cases terminated <;> rcases hf with rfl | rfl <;> cases h
  | _ => rcases hf with rfl | rfl <;> cases h

open State

/-- Every reported signature of a function or an operator is recognized by a rule in a fragment of
the header. It bears the name of an operator or a name with parts, and its names are free of
keywords just if the parts of names that are read without a look at them are. -/
theorem reported_names {source : String} {c : Callback} {f : Signature}
    (hc : c ∈ (parse source).callbacks)
    (hf : c.event = .functionDecl f ∨ c.event = .functionDef f) :
    ∃ s line later rule terminated rest, Reports source s line later c ∧
      s.found? line = some (rule, .function f terminated, rest) ∧
      NamesRead (Token.tokens line.text) rule f ∧ (KeywordFree rule f ↔ UncheckedFree rule f) := by
  have hk : c.event.isStructural = true := by rcases hf with hf | hf <;> rw [hf] <;> rfl
  obtain ⟨s, line, later, es, t, hr, hp, hs, hmem⟩ := exists_step_of_mem_callbacks hc hk
  obtain ⟨-, rule, k, rest, hfound, hevent⟩ := found?_of_mem_step hs hmem hk
  have hk : ∃ terminated, k = .function f terminated := by
    rcases hevent with he | ⟨d, he⟩ | he
    · exact exists_function_of_event? he hf
    · rcases hf with hf | hf <;> rw [hf] at he <;> cases he
    · rcases hf with hf | hf <;> rw [hf] at he <;> cases he
  obtain ⟨terminated, rfl⟩ := hk
  have hread := NamesRead.of_recognize? (Rule.recognize?_of_match? hfound).2
  exact ⟨s, line, later, rule, terminated, rest, ⟨hr, hp, es, t, hs, hmem⟩, hfound, hread,
    hread.keywordFree_iff⟩

/-- A conversion operator outside its class. -/
def outsideConversion : String :=
  "inline A::operator bool() const \x7b return b; \x7d\n"

def outsideSignature : Signature :=
  ⟨none, some (.ofTokens ["A::operator"]), "bool", [], true, false, false, none⟩

theorem reported_names_outsideConversion :
    ∃ c ∈ (parse outsideConversion).callbacks, c.event = .functionDef outsideSignature ∧
      ∃ s line later rule, Reports outsideConversion s line later c ∧
        ¬ KeywordFree rule outsideSignature := by
  have hc : ∃ c ∈ (parse outsideConversion).callbacks,
      c.event = .functionDef outsideSignature := by decide +kernel
  obtain ⟨c, hmem, hevent⟩ := hc
  obtain ⟨s, line, later, rule, _, _, hr, -, -, hiff⟩ := reported_names hmem (.inr hevent)
  refine ⟨c, hmem, hevent, s, line, later, rule, hr, fun hfree => ?_⟩
  have hlater := (hiff.mp hfree).types (.ofTokens ["A::operator"]) (by decide) "A::operator"
    (by decide) "operator" (by decide)
  exact absurd hlater (by decide)

end HeaderOutline
