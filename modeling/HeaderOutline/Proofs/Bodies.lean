import HeaderOutline.Proofs.BraceScan
import HeaderOutline.Proofs.Delimiters
/-!
# Function bodies

Whatever stands in the body of a function, as long as its braces are balanced and nothing in it is
quoted or begins with `#`, the reading comes to the text behind the brace that closes the body, in
the scopes that were there before, and reports nothing.

Results: `leads_body`.
-/
namespace HeaderOutline
open Text Brace

def bracesAmong (cs : List Char) : List Brace :=
  cs.filterMap ofChar?

/-- The characters close as many more braces than they open, and never more. -/
def Closes (depth : Nat) (cs : List Char) : Prop :=
  (∀ us, us <+: bracesAmong cs → 0 ≤ depth + net us) ∧ depth + net (bracesAmong cs) = 0

theorem bracesAmong_append (as bs : List Char) :
    bracesAmong (as ++ bs) = bracesAmong as ++ bracesAmong bs :=
  List.filterMap_append

theorem bracesAmong_eq_nil {cs : List Char} (h : ∀ c ∈ cs, c ≠ '\x7b' ∧ c ≠ '\x7d') :
    bracesAmong cs = [] :=
  List.filterMap_eq_nil_iff.mpr fun c hc => by simp [ofChar?, h c hc]

/-- What closes some braces still does without its part in front. -/
theorem Closes.drop {depth depth' : Nat} {as bs : List Char} (h : Closes depth (as ++ bs))
    (hd : (depth' : Int) = depth + net (bracesAmong as)) : Closes depth' bs := by
  obtain ⟨h1, h2⟩ := h
  rw [bracesAmong_append] at h1 h2
  refine ⟨fun us hus => ?_, ?_⟩
  · have h3 := h1 (bracesAmong as ++ us) ((List.prefix_append_right_inj _).mpr hus)
    rw [net_append] at h3
    omega
  · rw [net_append] at h2
    omega

/-- A text is parted into semicolons in front and the rest. -/
theorem exists_semicolons (cs : List Char) :
    ∃ gap rest, cs = gap ++ rest ∧ Semicolons gap ∧ NoSemicolon rest := by
  induction hn : cs.length using Nat.strongRecOn generalizing cs with
  | ind n ih =>
    by_cases hs : NoSemicolon cs
    · exact ⟨[], cs, rfl, .nil, hs⟩
    · simp only [NoSemicolon, not_forall, not_not] at hs
      obtain ⟨t, ht, htext⟩ := hs
      cases hx : Token.next? (lineEnd cs) with
      | none =>
        rw [Token.tokens_of_next?_none hx] at ht
        cases ht
      | some found =>
        obtain ⟨t', r⟩ := found
        rw [Token.tokens_of_next? hx] at ht
        cases ht
        have happ := Token.append_of_next? hx
        have hsemi : t.text.toList = [';'] := by rw [htext]; rfl
        rw [hsemi] at happ
        obtain ⟨tail, htail⟩ := (trimEnd_front (lineHead cs)).trans (List.takeWhile_prefix _)
        rw [← lineEnd, ← happ] at htail
        have hcs : cs = (lineEnd cs).takeWhile isSpace ++ ';' :: (r ++ tail) := by
          simpa using htail.symm
        have hlt : (r ++ tail).length < n := by
          rw [← hn]
          conv => rhs; rw [hcs]
          simp only [List.length_append, List.length_cons]
          omega
        obtain ⟨gap, rest, hgr, hg, hrest⟩ := ih _ hlt (r ++ tail) rfl
        refine ⟨(lineEnd cs).takeWhile isSpace ++ ';' :: gap, rest, ?_, .cons (fun c hc => ?_) hg,
          hrest⟩
        · rw [List.append_assoc, List.cons_append, ← hgr]
          exact hcs
        · refine ⟨List.all_eq_true.mp List.all_takeWhile c hc, ?_⟩
          rintro rfl
          have h1 := (List.takeWhile_prefix _).subset hc
          exact lineHead_noBreak cs ((trimEnd_front _).subset h1)

/-- The semicolons in front of a text that goes on with a closing brace stand before the brace. -/
theorem exists_semicolons_before (cs v : List Char) :
    ∃ gap rest, cs = gap ++ rest ∧ Semicolons gap ∧ NoSemicolon (rest ++ '\x7d' :: v) := by
  obtain ⟨gap, rest, hgap, hg, hrest⟩ := exists_semicolons (cs ++ '\x7d' :: v)
  rcases List.append_eq_append_iff.mp hgap with ⟨as, h1, h2⟩ | ⟨c, h1, h2⟩
  · cases as with
    | nil =>
      refine ⟨gap, [], by simpa using h1.symm, hg, ?_⟩
      rwa [show [] ++ '\x7d' :: v = rest from h2]
    | cons e as =>
      have he : '\x7d' ∈ gap := by rw [h1, (List.cons.inj h2).1]; simp
      rcases hg.mem he with h | h
      · cases h
      · exact absurd h.1 (by decide)
  · exact ⟨gap, c, h1, hg, h2 ▸ hrest⟩

/-! ## Braces -/

theorem bracesAmong_quiet {u : List Char} (h : Quiet u) : bracesAmong u = [] :=
  bracesAmong_eq_nil fun c hm => by
    have hd := h.2 c hm
    simp only [isDelimiterChar, Bool.or_eq_false_iff, beq_eq_false_iff_ne] at hd
    exact hd.1

theorem bracesAmong_semicolons {gap : List Char} (h : Semicolons gap) : bracesAmong gap = [] :=
  bracesAmong_eq_nil fun c hm => by
    rcases h.mem hm with rfl | ⟨hs, -⟩
    · decide
    · constructor <;> rintro rfl <;> exact absurd hs (by decide)

/-- What closes nothing more than it opens and has no braces closes nothing. -/
theorem Closes.eq_zero {depth : Nat} {cs : List Char} (h : Closes depth cs)
    (hn : bracesAmong cs = []) : depth = 0 := by
  have h2 := h.2
  rw [hn, net_nil] at h2
  omega

/-- Where a closing brace comes first, something is open, and what follows closes the rest. -/
theorem Closes.behind_closing {depth : Nat} {u cs : List Char} (hu : bracesAmong u = [])
    (h : Closes depth (u ++ '\x7d' :: cs)) : ∃ k, depth = k + 1 ∧ Closes k cs := by
  have hc : Closes depth ((u ++ ['\x7d']) ++ cs) := by simpa using h
  have hclosing : bracesAmong (u ++ ['\x7d']) = [.closing] := by
    rw [bracesAmong_append, hu]
    rfl
  have hnet : net [.closing] = -1 := rfl
  have hpos := hc.1 [.closing] (by
    rw [bracesAmong_append (u ++ ['\x7d']), hclosing]
    exact List.prefix_append ..)
  rw [hnet] at hpos
  refine ⟨depth - 1, by omega, hc.drop ?_⟩
  rw [hclosing, hnet]
  omega

/-! ## Scopes and texts -/

/-- The scopes inside a body: skipped braces upon the frame of a function. -/
def insideBody (depth : Nat) (name : String) (fs : ScopeStack) : ScopeStack :=
  List.replicate depth .skip ++ .functionBody name true :: fs

theorem insideBody_cases (depth : Nat) (name : String) (fs : ScopeStack) :
    ∃ f gs, insideBody depth name fs = f :: gs ∧ f.isOpened = true ∧ State.endEvent? f = none ∧
      (insideBody depth name fs).context.declares = false := by
  cases depth with
  | zero => exact ⟨_, _, rfl, rfl, rfl, rfl⟩
  | succ depth => exact ⟨.skip, insideBody depth name fs, rfl, rfl, rfl, rfl⟩

/-- A text with nothing quoted is quiet up to its first delimiter. -/
theorem Tame.split {cs : List Char} (h : Tame cs) :
    Quiet cs ∨ ∃ u d v, cs = u ++ d :: v ∧ Quiet u ∧ isDelimiterChar d = true ∧ Tame v := by
  have hsplit := List.takeWhile_append_dropWhile (p := fun c => !isDelimiterChar c) (l := cs)
  have hquiet : Quiet (cs.takeWhile fun c => !isDelimiterChar c) :=
    ⟨h.mono fun c hc => (List.takeWhile_prefix _).subset hc, fun c hc => by
      simpa using List.all_eq_true.mp List.all_takeWhile c hc⟩
  cases hd : cs.dropWhile fun c => !isDelimiterChar c with
  | nil =>
    rw [hd, List.append_nil] at hsplit
    exact .inl (hsplit ▸ hquiet)
  | cons d v =>
    have hdel := List.head?_dropWhile_not (fun c => !isDelimiterChar c) cs
    rw [hd] at hdel hsplit
    refine .inr ⟨_, d, v, hsplit.symm, hquiet, by simpa using hdel, h.mono fun c hc => ?_⟩
    rw [← hsplit]
    simp [hc]

/-- The body of a function is passed over. -/
theorem leads_body {name : String} {fs : ScopeStack} {b v : List Char} (depth : Nat) (hb : Tame b)
    (hc : Closes depth b) (hv : NoSemicolon v) :
    Leads (insideBody depth name fs) (b ++ '\x7d' :: v) [] fs v := by
  -- The induction is on the length of the body: each delimiter shortens it, and a closing brace
  -- takes the semicolons behind it along.
  induction hn : b.length using Nat.strongRecOn generalizing b depth with
  | ind n ih =>
    obtain ⟨f, gs, hscopes, hopened, hevent, hctx⟩ := insideBody_cases depth name fs
    have hclose : Construct.closeBrace.Does (insideBody depth name fs) [] gs := by
      have h := @Construct.does_closeBrace gs f hopened
      rwa [hevent, ← hscopes] at h
    rcases hb.split with hq | ⟨u, d, b', rfl, hu, hd, hb'⟩
    · -- No delimiter stands before the brace that closes the body.
      obtain rfl := hc.eq_zero (bracesAmong_quiet hq)
      cases hscopes
      exact leads_closing ⟨hq, .inr hctx⟩ .nil hv hclose
    · have hp : Passed (insideBody depth name fs) u := ⟨hu, .inr hctx⟩
      have hquiet := bracesAmong_quiet hu
      rw [List.length_append, List.length_cons] at hn
      rw [List.append_assoc, List.cons_append]
      have hc' : Closes depth (u ++ [d] ++ b') := by simpa using hc
      rcases isDelimiterChar_cases hd with rfl | rfl | rfl
      · have hopen : Construct.openBrace.Does (insideBody depth name fs) []
            (insideBody (depth + 1) name fs) := by
          have h := @Construct.does_openSkip (f :: gs) (by simpa using hopened)
          rwa [← hscopes] at h
        have hdeeper : Closes (depth + 1) b' := hc'.drop (by rw [bracesAmong_append, hquiet]; rfl)
        exact (leads_opening hp hopen).trans (ih b'.length (by omega) (depth + 1) hb' hdeeper rfl)
      · -- A closing brace inside the body closes a skipped one.
        obtain ⟨k, rfl, hk⟩ := hc.behind_closing hquiet
        obtain ⟨gap, c, rfl, hg, hrest⟩ := exists_semicolons_before b' v
        have hck : Closes k c := hk.drop (by rw [bracesAmong_semicolons hg, net_nil]; omega)
        have htame : Tame c := hb'.mono fun e he => by simp [he]
        rw [List.length_append] at hn
        have hnext := ih c.length (by omega) k htame hck rfl
        cases hscopes
        rw [List.append_assoc]
        exact (leads_closing hp hg hrest hclose).trans hnext
      · have hsame : Closes depth b' :=
          hc'.drop (by rw [bracesAmong_append, hquiet]; simp [bracesAmong, ofChar?])
        exact (leads_semicolon hp).trans (ih b'.length (by omega) depth hb' hsame rfl)

end HeaderOutline
