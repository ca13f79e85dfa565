import YangEvolution.Proofs.StatementOrder

/-!
Elements of other vocabularies in a module document. The prefix of an element, which tells the
vocabulary that it belongs to, plays no part in loading. Main statement: an element that is added
anywhere is ignored if its tag is no keyword, whatever its prefix is, and documents that differ in
the prefixes of elements are loaded to the same; so an element of another vocabulary whose tag is a
keyword is read as the statement of that keyword, and a container of one is loaded as a container.
-/

namespace YangEvolution

open Text Markup Yin Outcome

namespace Markup.Element

/-- One element more, at some place. -/
def Gains (x : Element) (stmts stmts' : List Element) : Prop :=
  ∃ before after, stmts = before ++ after ∧ stmts' = before ++ x :: after

/-- The tags that are read somewhere in a module. -/
def keywords : List String :=
  readTags ++ definitionTags ++ nodeTags

theorem filter_of_gains {x : Element} {stmts stmts' : List Element} (h : Gains x stmts stmts')
    {p : Element → Bool} (hp : p x = false) : stmts'.filter p = stmts.filter p := by
  obtain ⟨before, after, rfl, rfl⟩ := h
  simp [List.filter_append, hp]

mutual

/-- An element without prefixes. -/
def bare : Element → Element
  | ⟨tag, _, attributes, children, text⟩ => ⟨tag, none, attributes, bareAll children, text⟩

def bareAll : List Element → List Element
  | [] => []
  | e :: rest => e.bare :: bareAll rest

end

theorem bareAll_eq_map (stmts : List Element) : bareAll stmts = stmts.map bare := by
  induction stmts with
  | nil => rfl
  | cons e rest ih => rw [bareAll, ih, List.map_cons]

theorem bare_eq (e : Element) :
    e.bare = { e with nsPrefix := none, children := e.children.map bare } := by
  cases e
  rw [bare, bareAll_eq_map]

variable {e e' : Element} (h : e'.bare = e.bare)

include h

theorem tag_of_bare : e'.tag = e.tag := by
  rw [bare_eq, bare_eq] at h
  exact (Element.mk.inj h).1

theorem text_of_bare : e'.text = e.text := by
  rw [bare_eq, bare_eq] at h
  exact (Element.mk.inj h).2.2.2.2

theorem attributes_of_bare : e'.attributes = e.attributes := by
  rw [bare_eq, bare_eq] at h
  exact (Element.mk.inj h).2.2.1

theorem forall₂_filter_of_bare (p : String → Bool) :
    List.Forall₂ (fun c c' : Element => c'.bare = c.bare) (e.children.filter fun c => p c.tag)
      (e'.children.filter fun c => p c.tag) := by
  have hchildren : e'.children.map bare = e.children.map bare := by
    rw [bare_eq, bare_eq] at h
    exact (Element.mk.inj h).2.2.2.1
  refine filter_of_forall₂ (forall₂_of_map_eq hchildren) fun c c' hc => ?_
  rw [tag_of_bare hc]

end Markup.Element

namespace Yin

open Element (Gains keywords bare)

/-- The addition of an element that is no statement. -/
def gaining {x : Element} (hx : x.tag ∉ keywords) : Retelling True :=
  .ofAltered (Gains x)
    (fun tag htag l l' h => by
      refine Element.filter_of_gains h (beq_eq_false_iff_ne.mpr ?_)
      rintro rfl
      exact hx (List.mem_append_left _ htag))
    (fun l l' h => by
      refine Element.filter_of_gains h ?_
      rw [isNodeStatement_eq, ← Bool.not_eq_true, List.contains_iff_mem]
      exact fun hmem => hx (List.mem_append_right _ hmem))
    (fun _ l l' h => by
      have htop : topTags ⊆ readTags ++ definitionTags := by decide
      refine Element.filter_of_gains h ?_
      rw [isDefinition, ← Bool.not_eq_true, List.contains_iff_mem]
      exact fun hmem => hx (List.mem_append_left _ (htop hmem)))

/-- Other prefixes of elements. -/
def reprefixing : Retelling True :=
  .ofAttributes (fun e e' => e'.bare = e.bare) Element.tag_of_bare Element.text_of_bare
    Element.attributes_of_bare
    (fun h _ => Element.forall₂_filter_of_bare h fun tag => tag == _)
    (fun h => Element.forall₂_filter_of_bare h fun tag => (dataKind? tag).isSome || tag == "uses")
    fun h _ => Element.forall₂_filter_of_bare h fun tag => topTags.contains tag

end Yin

namespace Loading.Loader

/-- Texts that are strictly related by a retelling are loaded to the same. -/
theorem load_eq_of_strict (t : Retelling True) (ht : ∀ p, t.rename p = p) (loader : Loader)
    {tree : FileTree} {origin origin' : Origin} {root root' : Element}
    (hroot : origin.element tree = .ok root) (hroot' : origin'.element tree = .ok root')
    (hdir : origin'.dir = origin.dir) (htext : origin'.text = origin.text)
    (hstmt : t.stmt root root') : loader.load tree origin' = loader.load tree origin := by
  obtain ⟨hagree, hloader⟩ := loader.load_retold t hroot hroot' hdir (fun _ => htext) hstmt
    fun p q _ _ hpq => by rwa [ht, ht] at hpq
  refine Prod.ext ?_ hloader
  refine (hagree.imp fun m m' hm => ?_).eq_of_strict trivial
  rw [hm, ht]

/-- An added element whose tag is no keyword is ignored; what its prefix is, and what those of all
others are, makes no difference either way. -/
theorem foreign_elements_by_tag (loader : Loader) (tree : FileTree) {origin origin' : Origin}
    {root root' x : Element} (hroot : origin.element tree = .ok root)
    (hroot' : origin'.element tree = .ok root') (hdir : origin'.dir = origin.dir)
    (htext : origin'.text = origin.text) (h : Element.Altered (Element.Gains x) root root') :
    (x.tag ∉ Element.keywords → loader.load tree origin' = loader.load tree origin) ∧
    ∀ origin'' root'', origin''.element tree = .ok root'' → origin''.dir = origin.dir →
      origin''.text = origin.text → root''.bare = root'.bare →
      loader.load tree origin'' = loader.load tree origin' := by
  constructor
  · intro hx
    exact load_eq_of_strict (gaining hx) (fun _ => rfl) loader hroot hroot' hdir htext (.inr h)
  · intro origin'' root'' hroot'' hdir'' htext'' hbare
    exact load_eq_of_strict reprefixing (fun _ => rfl) loader hroot' hroot''
      (hdir''.trans hdir.symm) (htext''.trans htext.symm) hbare

/-- A remark in another vocabulary, with a statement in it. -/
def remark (vocabulary : String) : Element where
  tag := "remark"
  nsPrefix := some vocabulary
  children := [{ tag := "leaf", attributes := [("name", "l")] }]

def boxOnly : Bytes :=
  ("<module name=\"a\"><namespace uri=\"u\"/><prefix value=\"a\"/>" ++
    "<container name=\"c\"/></module>").toUTF8.toList

def boxRemarked : Bytes :=
  ("<module name=\"a\" xmlns:x=\"x\"><namespace uri=\"u\"/><prefix value=\"a\"/>" ++
    "<container name=\"c\"><x:remark><leaf name=\"l\"/></x:remark></container></module>")
    |>.toUTF8.toList

def boxRemarkedOtherwise : Bytes :=
  ("<module name=\"a\" xmlns:y=\"y\"><namespace uri=\"u\"/><prefix value=\"a\"/>" ++
    "<container name=\"c\"><y:remark><leaf name=\"l\"/></y:remark></container></module>")
    |>.toUTF8.toList

theorem foreign_elements_by_tag_remark :
    ∃ m, (remark "x").tag ∉ Element.keywords ∧
      load ⟨[], []⟩ ⟨.empty, ⟨"/"⟩⟩ (.document boxOnly none) = (.ok m, ⟨[], []⟩) ∧
      load ⟨[], []⟩ ⟨.empty, ⟨"/"⟩⟩ (.document boxRemarked none) = (.ok m, ⟨[], []⟩) ∧
      load ⟨[], []⟩ ⟨.empty, ⟨"/"⟩⟩ (.document boxRemarkedOtherwise none) =
        (.ok m, ⟨[], []⟩) := by
  have hchecked : (parse boxOnly).toOption = some (boxModule []) ∧
      (parse boxRemarked).toOption = some (boxModule [remark "x"]) ∧
      (parse boxRemarkedOtherwise).toOption = some (boxModule [remark "y"]) ∧
      loadsAlone boxOnly (fun _ => true) = true := by
    decide +kernel
  obtain ⟨honly, hremarked, hotherwise, hloads⟩ := hchecked
  obtain ⟨m, hm, -⟩ := exists_of_loadsAlone hloads ⟨.empty, ⟨"/"⟩⟩
  have hremark : (remark "x").tag ∉ Element.keywords := by decide
  have hboth := foreign_elements_by_tag ⟨[], []⟩ ⟨.empty, ⟨"/"⟩⟩
    (Origin.element_of_parse honly _ none) (Origin.element_of_parse hremarked _ none) (by simp)
    (by simp) (altered_boxModule ⟨[], [], rfl, rfl⟩)
  have hotherwise := hboth.2 _ _ (Origin.element_of_parse hotherwise _ none) (by simp) (by simp) rfl
  exact ⟨m, hremark, hm, (hboth.1 hremark).trans hm, hotherwise.trans ((hboth.1 hremark).trans hm)⟩

/-- A module without nodes, and the same with a container of another vocabulary in it. -/
def bareModule (stmts : List Element) : Element where
  tag := "module"
  attributes := [("name", "a")]
  children := [
    { tag := "namespace", attributes := [("uri", "urn:a")] },
    { tag := "prefix", attributes := [("value", "a")] }] ++ stmts

def foreignContainer : Element where
  tag := "container"
  nsPrefix := some "x"
  attributes := [("name", "c")]

def bareDocument : Bytes :=
  ("<module name=\"a\" xmlns=\"urn:ietf:params:xml:ns:yang:yin:1\" xmlns:x=\"urn:x\">" ++
    "<namespace uri=\"urn:a\"/><prefix value=\"a\"/></module>").toUTF8.toList

def foreignDocument : Bytes :=
  ("<module name=\"a\" xmlns=\"urn:ietf:params:xml:ns:yang:yin:1\" xmlns:x=\"urn:x\">" ++
    "<namespace uri=\"urn:a\"/><prefix value=\"a\"/><x:container name=\"c\"/></module>")
    |>.toUTF8.toList

/-- A container of another vocabulary becomes a node of the module. -/
theorem foreign_container_becomes_node :
    ∃ m m', (Origin.document bareDocument none).element ⟨.empty, ⟨"/"⟩⟩ = .ok (bareModule []) ∧
      (Origin.document foreignDocument none).element ⟨.empty, ⟨"/"⟩⟩ =
        .ok (bareModule [foreignContainer]) ∧
      Element.Altered (Element.Gains foreignContainer) (bareModule [])
        (bareModule [foreignContainer]) ∧
      load ⟨[], []⟩ ⟨.empty, ⟨"/"⟩⟩ (.document bareDocument none) = (.ok m, ⟨[], []⟩) ∧
      load ⟨[], []⟩ ⟨.empty, ⟨"/"⟩⟩ (.document foreignDocument none) = (.ok m', ⟨[], []⟩) ∧
      m.children = [] ∧ ∃ n ∈ m'.children, n.data.kind = .container := by
  have hchecked : (parse bareDocument).toOption = some (bareModule []) ∧
      (parse foreignDocument).toOption = some (bareModule [foreignContainer]) ∧
      loadsAlone bareDocument (fun m => m.children.isEmpty) = true ∧
      loadsAlone foreignDocument (fun m => m.children.any fun n =>
        n.data.kind == .container) = true := by
    decide +kernel
  obtain ⟨hbare, hforeign, hloads, hloads'⟩ := hchecked
  obtain ⟨m, hm, hempty⟩ := exists_of_loadsAlone hloads ⟨.empty, ⟨"/"⟩⟩
  obtain ⟨m', hm', hany⟩ := exists_of_loadsAlone hloads' ⟨.empty, ⟨"/"⟩⟩
  simp only [List.any_eq_true, beq_iff_eq] at hany
  refine ⟨m, m', Origin.element_of_parse hbare _ none, Origin.element_of_parse hforeign _ none,
    .here ⟨(bareModule []).children, [], rfl, rfl⟩, hm, hm', List.isEmpty_iff.mp hempty, hany⟩

end Loading.Loader

end YangEvolution
