import HeaderOutline.Proofs.InterfaceCompleteness
import HeaderOutline.Proofs.SkeletonPieces
/-!
# A skeleton defines what its header declares

The skeleton of a printed interface is a header in its own right. `Skeleton.answer?` says how each
call for the interface comes back when the skeleton is read: namespaces are as they were, and a
function that needs a body comes back as its definition outside of its classes. Everything else
leaves no trace, the bodies of constructors and destructors among it.

`Answered header gs ks hs`: what the calls `ks` add to the skeleton leads from the scopes `gs` to
the scopes `hs` and is read as the answers to the calls. The members of a class are read in the
namespaces around it, whose frames are all that is left of the scopes there (`Around`).

Results:
* `answered_function`, `answered_constructor`, `answered_destructor`: one declaration.
* `answered_members`, `answered_interface`: by induction over the syntax.
* `parse_skeleton`: whole skeletons.
-/
namespace HeaderOutline
open Text Declaration

/-! ## Answers -/

def ScopeStack.nameSpaces (fs : ScopeStack) : ScopeStack :=
  fs.filter fun f => f.kind == .nameSpace

/-- How a call for a header comes back when its skeleton is read. -/
def Skeleton.answer? : Call → Option Call
  | (.nameSpace name, fs) => some (.nameSpace name, fs)
  | (.nameSpaceStart name, fs) => some (.nameSpaceStart name, fs)
  | (.nameSpaceEnd name, fs) => some (.nameSpaceEnd name, fs)
  | (.functionDecl s, fs) =>
    if fs.insideTemplate || !s.needsBody then none
    else some (.functionDef (outside fs s), fs.nameSpaces)
  | _ => none

variable {header : String} {gs hs is fs : ScopeStack} {ks js : List Call} {k : Call}
  {ns : List FreeName} {n : FreeName} {c : ClassBody}

/-- What the calls add to the skeleton is read as the answers to them. -/
def Answered (header : String) (gs : ScopeStack) (ks : List Call) (hs : ScopeStack) : Prop :=
  ReadsAs gs (Skeleton.written header ks) (ks.filterMap Skeleton.answer?) hs

namespace Answered

theorem nil (header : String) (gs : ScopeStack) : Answered header gs [] gs :=
  ReadsAs.nil gs

theorem append (h : Answered header gs ks hs) (h' : Answered header hs js is) :
    Answered header gs (ks ++ js) is := by
  rw [Answered, Skeleton.written_append, List.filterMap_append]
  exact ReadsAs.append h h'

theorem cons (h : Answered header gs [k] hs) (h' : Answered header hs ks is) :
    Answered header gs (k :: ks) is :=
  append h h'

theorem of_piece {answer : Option Call} (ha : Skeleton.answer? k = answer) {piece : String}
    (hp : Skeleton.piece header ⟨k.1, 0, k.2⟩ = piece)
    (h : ReadsAs gs piece.toList answer.toList hs) : Answered header gs [k] hs := by
  have hwritten : Skeleton.written header [k] = piece.toList := by simp [Skeleton.written, hp]
  have hanswers : [k].filterMap Skeleton.answer? = answer.toList := by
    cases answer <;> simp [ha]
  rw [Answered, hwritten, hanswers]
  exact h

theorem skip (gs : ScopeStack) (hp : Skeleton.piece header ⟨k.1, 0, k.2⟩ = "")
    (ha : Skeleton.answer? k = none) : Answered header gs [k] gs :=
  of_piece ha hp (ReadsAs.nil gs)

end Answered

/-! ## Members of classes -/

/-- The namespaces among the scopes are these, and the classes bear these names, outermost first. -/
structure Around (gs fs : ScopeStack) (ns : List FreeName) : Prop where
  inNameSpaces : InNameSpaces gs
  nameSpaces : fs.nameSpaces = gs
  classes : InClasses ns fs

namespace Around

theorem of_inNameSpaces (h : InNameSpaces gs) : Around gs gs [] where
  inNameSpaces := h
  nameSpaces := List.filter_eq_self.mpr fun f hf => by
    obtain ⟨name, rfl⟩ := h f hf
    rfl
  classes := by
    have hnone : gs.classes = [] := List.filterMap_eq_nil_iff.mpr fun f hf => by
      obtain ⟨name, rfl⟩ := h f hf
      rfl
    simp [InClasses, hnone]

theorem classBody (h : Around gs fs ns) (hn : c.name = n.text) :
    Around gs (.classBody c :: fs) (ns ++ [n]) where
  inNameSpaces := h.inNameSpaces
  nameSpaces := by
    have hkind : (Frame.classBody c).kind ≠ .nameSpace := by
      show (if c.template.isSome then FrameKind.templateClass else .classBody) ≠ .nameSpace
      split <;> simp
    rw [ScopeStack.nameSpaces, List.filter_cons_of_neg (by simpa using hkind)]
    exact h.nameSpaces
  classes := by
    have hclasses : ScopeStack.classes (.classBody c :: fs) = c :: fs.classes := rfl
    rw [InClasses, hclasses, List.reverse_cons, List.map_append, h.classes, List.map_append]
    simp [hn]

end Around

/-- A function is defined, unless it needs no body or its body belongs in the header. -/
theorem answered_function (f : RoutineSyntax) (spec : Option Specifier) (h : Around gs fs ns) :
    Answered header gs [(.functionDecl (f.signature spec), fs)] gs := by
  by_cases hskip : fs.insideTemplate || !(f.signature spec).needsBody
  · exact .skip gs (if_pos hskip) (if_pos hskip)
  · obtain rfl : spec = none := by
      simp only [Bool.or_eq_true, Bool.not_eq_true', not_or, Bool.not_eq_false] at hskip
      simpa [Signature.needsBody, RoutineSyntax.signature] using hskip.2
    refine .of_piece (if_neg hskip) (if_neg hskip) ?_
    rw [h.nameSpaces]
    exact readsAs_functionBody f h.inNameSpaces h.classes

/-- The body of a constructor leaves no trace. -/
theorem answered_constructor (n : FreeName) (ps : FormalList) (h : Around gs fs ns) :
    Answered header gs [(.constructorDecl n.text ps.values, fs)] gs := by
  by_cases hskip : fs.insideTemplate
  · exact .skip gs (if_pos hskip) rfl
  · exact .of_piece rfl (if_neg hskip) (readsAs_constructor n ps h.inNameSpaces h.classes)

/-- The body of a destructor leaves no trace. -/
theorem answered_destructor (n m : FreeName) (h : Around gs fs (m :: ns)) :
    Answered header gs [(.destructorDecl ("~" ++ n.text), fs)] gs := by
  by_cases hskip : fs.insideTemplate
  · exact .skip gs (if_pos hskip) rfl
  · exact .of_piece rfl (if_neg hskip) (readsAs_destructor n m h.inNameSpaces h.classes)

theorem answered_declaration (d : InterfaceDecl) (h : Around gs fs ns) :
    Answered header gs [(d.event, fs)] gs := by
  cases d with
  | enum e => exact .skip gs rfl rfl
  | function f spec => exact answered_function f spec h
  | definition f body => exact .skip gs rfl rfl

theorem answered_classHead (head : ClassSyntax) (fs gs : ScopeStack) :
    Answered header gs (head.calls fs) gs :=
  .cons (.skip gs rfl rfl) (.skip gs rfl rfl)

/-- The members of a class and its end, read in the namespaces around it. -/
theorem answered_members (m : InterfaceMembers) (h : Around gs fs ns) (hn : c.name = n.text) :
    Answered header gs (m.calls fs c) gs := by
  induction m generalizing c n fs ns with
  | nil => exact .skip gs rfl rfl
  | label level rest ih => exact ih h hn
  | constructor k rest ih =>
    have hk := @answered_constructor header _ _ _ n k.params (h.classBody hn)
    rw [← hn] at hk
    exact hk.cons (ih h hn)
  | destructor d rest ih =>
    obtain ⟨m, ms, hm⟩ := List.exists_cons_of_ne_nil (show ns ++ [n] ≠ [] by simp)
    have hk := @answered_destructor header _ _ _ n m (hm ▸ h.classBody hn)
    rw [← hn] at hk
    exact hk.cons (ih h hn)
  | declaration d rest ih => exact (answered_declaration d (h.classBody hn)).cons (ih h hn)
  | nested head members rest ih1 ih2 =>
    have hinner := @ih1 _ _ head.name head.body (h.classBody hn) rfl
    exact ((answered_classHead head _ gs).append hinner).append (ih2 h hn)

/-! ## Whole interfaces -/

/-- An interface in the namespaces around it. -/
theorem answered_interface (h : InterfaceSyntax) (hg : InNameSpaces gs) :
    Answered header gs (h.calls gs) gs := by
  induction h generalizing gs with
  | nil => exact .nil header gs
  | declaration d rest ih => exact (answered_declaration d (.of_inNameSpaces hg)).cons (ih hg)
  | classBody head members rest ih =>
    have hmembers := @answered_members header _ _ _ head.name head.body members
      (.of_inNameSpaces hg) rfl
    exact ((answered_classHead head gs gs).append hmembers).append (ih hg)
  | nameSpace name inner rest ih1 ih2 =>
    let text := (name.map (·.text)).getD ""
    have hinside : InNameSpaces (.nameSpace text true :: gs) :=
      List.forall_mem_cons.mpr ⟨⟨text, rfl⟩, hg⟩
    have hhead : Answered header gs [(.nameSpace text, gs)] (.nameSpace text false :: gs) :=
      readsAs_nameSpace hg header
    have hstart : Answered header (.nameSpace text false :: gs)
        [(.nameSpaceStart text, .nameSpace text true :: gs)] (.nameSpace text true :: gs) :=
      readsAs_start text header _
    have hend : Answered header (.nameSpace text true :: gs)
        [(.nameSpaceEnd text, .nameSpace text true :: gs)] gs := readsAs_end text header _
    exact hhead.cons (hstart.cons ((ih1 hinside).append (hend.cons (ih2 hg))))

/-- The skeleton of an interface is read to its end: no scope stays open, nothing is given up, the
namespaces of the interface are reported again, and each function that needs a body is reported as
defined. A printed interface is reported as such, and however else a header is laid out that is
reported as the interface, its skeleton is read like that. -/
theorem parse_skeleton (h : InterfaceSyntax) (header : String) (hb : '\n' ∉ header.toList) :
    (∀ breaks, (parse (h.print breaks)).calls = h.calls []) ∧
      ∀ source, (parse source).calls = h.calls [] →
        ∃ f, (parse (Skeleton.text header (parse source).callbacks)).result = .ok f ∧
          f.summary.unclosedScopes = 0 ∧ f.tally.discarded = 0 ∧
          (parse (Skeleton.text header (parse source).callbacks)).calls =
            (h.calls []).filterMap Skeleton.answer? := by
  refine ⟨fun breaks => ?_, fun source hcalls => ?_⟩
  · obtain ⟨-, -, -, -, hcalls⟩ := parse_interface h breaks
    exact hcalls
  · have htext := Skeleton.toList_text header source
    rw [hcalls] at htext
    obtain ⟨hunquoted, hleads⟩ := @answered_interface header [] h (fun _ hf => by cases hf)
    have hread := hleads []
    rw [List.append_nil] at hread
    have hline : Unquoted ('\n' :: Skeleton.written header (h.calls [])) :=
      (show Unquoted ['\n'] by decide).append hunquoted
    refine parse_of_texts ?_ ?_
    · rw [htext]
      exact Skeleton.texts_includeLine hb hline.noComment
    · rw [htext]
      exact (Skeleton.leads_includeLine [] hb _).trans (.blank (by decide) hread)

/-- A function of the store without specifiers, a template head or qualifiers. -/
def storeRoutine (name : FreeName) (type : BareType) : RoutineSyntax where
  template := none
  words := []
  type := .plain false type ⟨0, ⟨0, by decide⟩⟩
  name := ⟨false, name, []⟩
  relative := rfl
  params := ⟨[], by simp⟩
  qualifiers := []

/-- A class with a class in it, a class template, and a function in no namespace. -/
def storeInterface : InterfaceSyntax :=
  let int : BareType := .native ⟨"int", by decide⟩ []
  let store : FreeName := ⟨"Store", by decide⟩
  let cursor : FreeName := ⟨"Cursor", by decide⟩
  let noParams : FormalList := ⟨[], by simp⟩
  let reference : FormalSyntax :=
    .typed (.plain true (.named ⟨false, store, []⟩) ⟨0, ⟨1, by decide⟩⟩) none none
  let count : RoutineSyntax := { storeRoutine ⟨"count", by decide⟩ int with
    words := [⟨"static", by decide⟩] }
  let put : RoutineSyntax := { storeRoutine ⟨"put", by decide⟩ int with
    template := some ⟨⟨"T", by decide⟩, []⟩
    params := ⟨[.typed (.plain false (.named ⟨false, ⟨"T", by decide⟩, []⟩) ⟨1, ⟨0, by decide⟩⟩)
      none none], by decide⟩
    qualifiers := [⟨"const", by decide⟩] }
  let next := storeRoutine ⟨"next", by decide⟩ (.named ⟨false, cursor, []⟩)
  .nameSpace (some ⟨"app", by decide⟩)
    (.classBody ⟨none, .isClass, store⟩
      (.label .isPublic (.constructor ⟨[], ⟨[reference], by decide⟩, [], none⟩
        (.destructor ⟨[⟨"virtual", by decide⟩], [], none⟩
          (.declaration (.function count none) (.declaration (.function put none)
            (.nested ⟨none, .isStruct, cursor⟩
              (.constructor ⟨[], noParams, [], some .deleted⟩
                (.declaration (.function next none) .nil))
              (.declaration (.function next (some .pureVirtual)) .nil)))))))
      (.classBody ⟨some ⟨⟨"T", by decide⟩, []⟩, .isClass, ⟨"Box", by decide⟩⟩
        (.declaration (.function count none) .nil) .nil))
    (.declaration (.function next none) .nil)

theorem parse_skeleton_store :
    '\n' ∉ "lib/store.h".toList ∧
      (parse (storeInterface.print fun _ => true)).calls = storeInterface.calls [] ∧
      ∃ f, (parse (Skeleton.text "lib/store.h"
          (parse (storeInterface.print fun _ => true)).callbacks)).result = .ok f ∧
        f.summary.unclosedScopes = 0 ∧ f.tally.discarded = 0 ∧
        (parse (Skeleton.text "lib/store.h"
            (parse (storeInterface.print fun _ => true)).callbacks)).calls =
          [(.nameSpace "app", []), (.nameSpaceStart "app", [.nameSpace "app" true]),
            (.functionDef { Signature.named "Store::count" [] with
              returnType := some (.ofTokens ["int"]) }, [.nameSpace "app" true]),
            (.functionDef { Signature.named "Store::put" [⟨.ofTokens ["T", "*"], none⟩] with
              template := some ⟨["T"]⟩, returnType := some (.ofTokens ["int"]), isConst := true },
              [.nameSpace "app" true]),
            (.functionDef { Signature.named "Store::Cursor::next" [] with
              returnType := some (.ofTokens ["Cursor"]) }, [.nameSpace "app" true]),
            (.nameSpaceEnd "app", [.nameSpace "app" true]),
            (.functionDef { Signature.named "next" [] with
              returnType := some (.ofTokens ["Cursor"]) }, [])] := by
  have hb : '\n' ∉ "lib/store.h".toList := by decide
  obtain ⟨hprint, hskeleton⟩ := parse_skeleton storeInterface "lib/store.h" hb
  obtain ⟨f, hf, hopen, hkept, hcalls⟩ := hskeleton _ (hprint fun _ => true)
  refine ⟨hb, hprint _, f, hf, hopen, hkept, hcalls.trans ?_⟩
  decide +kernel

end HeaderOutline
