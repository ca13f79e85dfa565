import YangEvolution.Proofs.LoadedNodes
import YangEvolution.Proofs.ImportRun
import YangEvolution.Proofs.RetoldModule

/-!
Loading another text of a module. Main statement: two texts that are related by a retelling are
loaded to the same module but for its own prefix, or none of them is; the loader keeps the same
modules in either case.
-/

namespace YangEvolution

open Text Markup Outcome

/-! ### Changes at one place -/

namespace Markup.Element

/-- The substatements of one statement in a tree are others. -/
inductive Altered (P : List Element → List Element → Prop) : Element → Element → Prop where
  | here {e : Element} {children : List Element} : P e.children children →
      Altered P e { e with children }
  | inside {e c c' : Element} {before after : List Element} : e.children = before ++ c :: after →
      Altered P c c' → Altered P e { e with children := before ++ c' :: after }

namespace Altered

variable {P : List Element → List Element → Prop} {e e' : Element}

theorem tag (h : Altered P e e') : e'.tag = e.tag := by
  cases h <;> rfl

theorem text (h : Altered P e e') : e'.text = e.text := by
  cases h <;> rfl

theorem attributes (h : Altered P e e') : e'.attributes = e.attributes := by
  cases h <;> rfl

/-- Substatements of certain tags correspond where the change leaves the list of them as it is. -/
theorem forall₂_filter {p : String → Bool}
    (hP : ∀ l l', P l l' → (l'.filter fun c => p c.tag) = l.filter fun c => p c.tag)
    (h : e' = e ∨ Altered P e e') :
    List.Forall₂ (fun e e' => e' = e ∨ Altered P e e') (e.children.filter fun c => p c.tag)
      (e'.children.filter fun c => p c.tag) := by
  have hrefl : ∀ l : List Element, List.Forall₂ (fun e e' => e' = e ∨ Altered P e e') l l :=
    fun l => List.forall₂_same.mpr fun _ _ => .inl rfl
  rcases h with rfl | hchildren | ⟨hsplit, hc⟩
  · exact hrefl _
  · rw [hP _ _ hchildren]
    exact hrefl _
  · simp only [hsplit, List.filter_append, List.filter_cons, hc.tag]
    refine List.rel_append (hrefl _) ?_
    split
    · exact .cons (.inr hc) (hrefl _)
    · exact hrefl _

end Altered

end Markup.Element

namespace Yin

variable {strict : Prop}

/-- A change at one place is a retelling if it leaves the lists of the substatements that are read
as they are. -/
def Retelling.ofAltered (P : List Element → List Element → Prop)
    (hread : ∀ tag ∈ readTags ++ definitionTags, ∀ l l', P l l' →
      (l'.filter fun c => c.tag == tag) = l.filter fun c => c.tag == tag)
    (hnodes : ∀ l l', P l l' → l'.filter isNodeStatement = l.filter isNodeStatement)
    (hinOrder : strict → ∀ l l', P l l' → l'.filter isDefinition = l.filter isDefinition) :
    Retelling strict :=
  ofAttributes (fun e e' => e' = e ∨ Element.Altered P e e')
    (fun h => h.elim (congrArg _) Element.Altered.tag)
    (fun h => h.elim (congrArg _) Element.Altered.text)
    (fun h => h.elim (congrArg _) Element.Altered.attributes)
    (fun h htag => Element.Altered.forall₂_filter (p := fun tag' => tag' == _) (hread _ htag) h)
    (fun h => Element.Altered.forall₂_filter
      (p := fun tag => (dataKind? tag).isSome || tag == "uses") hnodes h)
    fun h hstrict => Element.Altered.forall₂_filter (p := fun tag => topTags.contains tag)
      (hinOrder hstrict) h

/-! ### Headers -/

variable (t : Retelling strict) {e e' : Element}

theorem Retelling.childAttribute?_declared (h : t.stmt e e') :
    e'.childAttribute? "prefix" "value" = (e.childAttribute? "prefix" "value").map t.rename := by
  have hchild := t.reading.child? h "prefix" (by decide)
  rw [Element.childAttribute?, Element.childAttribute?]
  generalize e.child? "prefix" = found at hchild ⊢
  generalize e'.child? "prefix" = found' at hchild ⊢
  cases hchild with
  | none => rfl
  | some hc => exact t.declared hc.2 hc.1

theorem required_agree (owner statement : String) (rename : String → String)
    (value : Option String) :
    Agree strict (fun v v' => v' = rename v) (required owner statement value)
      (required owner statement (value.map rename)) := by
  cases value with
  | none => exact .error fun _ => rfl
  | some v => exact .ok rfl

theorem Retelling.importOf (h : t.stmt e e') (owner : String) :
    Agree strict (fun i i' => i' = { i with nsPrefix := t.rename i.nsPrefix })
      (Yin.importOf owner e) (Yin.importOf owner e') := by
  have hR := t.reading
  rw [Yin.importOf, Yin.importOf, hR.argument h owner "module" (by simp [holdsPrefix]),
    t.childAttribute?_declared h, hR.importedRevision h]
  refine (Agree.refl _).bind_eq fun target => ?_
  refine (required_agree owner "prefix" t.rename _).bind ?_
  rintro given _ rfl
  exact (Agree.refl _).bind fun revision _ hrevision => .ok (by rw [hrevision])

/-- The header of another text of a module is that of the module with other prefixes. -/
theorem Retelling.ofElement (h : t.stmt e e') {origin origin' : String}
    (horigin : strict → origin' = origin) (dir : Option PathName) :
    Agree strict (fun m m' => m.root = e ∧ m' = m.retell t.rename e')
      (ModuleSource.ofElement origin dir e) (ModuleSource.ofElement origin' dir e') := by
  have hR := t.reading
  rw [ModuleSource.ofElement, ModuleSource.ofElement, checkTag, checkTag, hR.tag h]
  by_cases hmodule : e.tag = "module"
  · rw [if_pos hmodule, if_pos hmodule, ok_bind, ok_bind]
    have hname : Agree strict Eq (argument origin e "name") (argument origin' e' "name") := by
      rw [argument, argument, hR.attribute? h (by rw [hmodule]; decide), hR.tag h]
      cases e.attribute? "name" with
      | some name => exact .refl _
      | none => exact .error fun hstrict => by rw [horigin hstrict]
    refine hname.bind_eq fun name => ?_
    rw [hR.childAttribute? h "namespace" "uri" (by decide) (by decide),
      t.childAttribute?_declared h,
      hR.childrenOf_mapM h (by decide) fun c c' _ hc => hR.revisionOf hc name]
    refine (Agree.refl _).bind_eq fun uri => ?_
    refine (required_agree name "prefix" t.rename _).bind ?_
    rintro given _ rfl
    refine (Agree.refl _).bind_eq fun revisions => ?_
    have himports := Agree.mapM ((hR.childrenOf h (show "import" ∈ readTags by decide)).imp
      fun c c' hc => t.importOf hc name)
    refine himports.bind fun imports imports' hboth => ?_
    rw [eq_map_of_forall₂ hboth]
    exact .ok ⟨rfl, rfl⟩
  · rw [if_neg hmodule, if_neg hmodule]
    exact .error fun hstrict => by rw [horigin hstrict]

/-- The prefixes that a module document declares. -/
def declaredPrefixes (root : Element) : List String :=
  (root.childAttribute? "prefix" "value").toList ++
    (root.childrenOf "import").filterMap fun stmt => stmt.childAttribute? "prefix" "value"

theorem required_eq_ok {owner statement : String} {value : Option String} {v : String}
    (h : required owner statement value = .ok v) : value = some v := by
  cases value with
  | none => cases h
  | some w =>
      cases h
      rfl

theorem nsPrefix_of_importOf {owner : String} {i : Import} (h : Yin.importOf owner e = .ok i) :
    e.childAttribute? "prefix" "value" = some i.nsPrefix := by
  obtain ⟨target, -, h⟩ := exists_of_bind_eq_ok h
  obtain ⟨given, hgiven, h⟩ := exists_of_bind_eq_ok h
  obtain ⟨revision, -, h⟩ := exists_of_bind_eq_ok h
  cases h
  exact required_eq_ok hgiven

theorem prefixes_subset {origin : String} {dir : Option PathName} {root : Element}
    {m : ModuleSource} (h : ModuleSource.ofElement origin dir root = .ok m) :
    m.prefixes ⊆ declaredPrefixes root := by
  obtain ⟨_, -, h⟩ := exists_of_bind_eq_ok h
  obtain ⟨name, -, h⟩ := exists_of_bind_eq_ok h
  obtain ⟨uri, -, h⟩ := exists_of_bind_eq_ok h
  obtain ⟨given, hgiven, h⟩ := exists_of_bind_eq_ok h
  obtain ⟨revisions, -, h⟩ := exists_of_bind_eq_ok h
  obtain ⟨imports, himports, h⟩ := exists_of_bind_eq_ok h
  cases h
  intro p hp
  rcases List.mem_cons.mp hp with rfl | hp
  · exact List.mem_append_left _ (by simp [required_eq_ok hgiven])
  · obtain ⟨i, hi, rfl⟩ := List.mem_map.mp hp
    obtain ⟨stmt, hstmt, hread⟩ := exists_of_mapM_eq_ok himports hi
    exact List.mem_append_right _
      (List.mem_filterMap.mpr ⟨stmt, hstmt, nsPrefix_of_importOf hread⟩)

end Yin

/-! ### Imports -/

namespace Loading

open Yin

/-- Requests for the same module, under whatever prefix. -/
structure Request.Alike (r r' : Request) : Prop where
  importer : r'.importer = r.importer
  dir : r'.dir = r.dir
  target : r'.wanted.target = r.wanted.target
  revision : r'.wanted.revision = r.wanted.revision

theorem Request.Alike.refl (r : Request) : r.Alike r :=
  ⟨rfl, rfl, rfl, rfl⟩

variable {tree : FileTree} {search : List PathName} {cache cache' : ModuleCache}
  {pending pending' : List Request} {looked : List LookUp} {fault : Option LoadFault}

theorem Request.Alike.locate? {r r' : Request} (h : r.Alike r') :
    r'.locate? tree search = r.locate? tree search := by
  rw [Request.locate?, Request.locate?, h.dir, h.target, h.revision]

/-- The prefixes under which modules are imported play no part in loading them. -/
theorem Loads.of_alike (h : Loads tree search cache pending looked fault cache')
    (halike : List.Forall₂ Request.Alike pending pending') :
    ∃ looked', Loads tree search cache pending' looked' fault cache' := by
  induction h generalizing pending' with
  | done =>
      cases halike
      exact ⟨_, .done _⟩
  | skip hloaded _ ih =>
      cases halike with
      | cons hr hrest =>
          obtain ⟨looked', hrun⟩ := ih hrest
          exact ⟨looked', .skip (by rw [hr.target, hloaded]) hrun⟩
  | notFound hnew hlocate =>
      cases halike with
      | cons hr hrest =>
          rw [← hr.importer, ← hr.target]
          exact ⟨_, .notFound (by rw [hr.target, hnew]) (by rw [hr.locate?, hlocate])⟩
  | unreadable hnew hlocate hread =>
      cases halike with
      | cons hr hrest =>
          exact ⟨_, .unreadable (by rw [hr.target, hnew]) (by rw [hr.locate?, hlocate]) hread⟩
  | @read _ _ _ _ _ m _ _ hnew hlocate hread _ ih =>
      cases halike with
      | cons hr hrest =>
          obtain ⟨looked', hrun⟩ := ih (List.rel_append
            (List.forall₂_same.mpr fun r _ => Request.Alike.refl r) hrest)
          rw [← hr.target] at hrun
          exact ⟨_, .read (by rw [hr.target, hnew]) (by rw [hr.locate?, hlocate]) hread hrun⟩

theorem alike_retell (m : ModuleSource) (rename : String → String) (root : Element) :
    List.Forall₂ Request.Alike (Request.ofSource m) (Request.ofSource (m.retell rename root)) := by
  rw [Request.ofSource, Request.ofSource, ModuleSource.retell, List.map_map,
    List.forall₂_map_left_iff, List.forall₂_map_right_iff]
  exact List.forall₂_same.mpr fun i _ => ⟨rfl, rfl, rfl, rfl⟩

/-! ### Loading -/

/-- The document in it. -/
def Origin.element (tree : FileTree) : Origin → Except LoadFault Element
  | .file path => (readDocument tree path).mapError (.unreadable path.text)
  | .document content _ =>
    (Markup.parse content).mapError fun fault => .unreadable Loader.memory (.document fault)

/-- How it is named in faults. -/
def Origin.text : Origin → String
  | .file path => path.text
  | .document _ _ => Loader.memory

/-- The directory that is searched first for imported modules. -/
def Origin.dir : Origin → Option PathName
  | .file path => path.parent?
  | .document _ dir => dir

@[simp] theorem Origin.text_document (content : Bytes) (dir : Option PathName) :
    (Origin.document content dir).text = Loader.memory := rfl

@[simp] theorem Origin.dir_document (content : Bytes) (dir : Option PathName) :
    (Origin.document content dir).dir = dir := rfl

theorem Origin.header_of_element {origin : Origin} {root : Element}
    (h : origin.element tree = .ok root) :
    origin.header tree = ModuleSource.ofElement origin.text origin.dir root := by
  have heq : origin.header tree =
      (origin.element tree >>= ModuleSource.ofElement origin.text origin.dir) := by
    cases origin <;> rfl
  rw [heq, h, ok_bind]

theorem Origin.element_of_parse {content : Bytes} {root : Element}
    (h : (Markup.parse content).toOption = some root) (tree : FileTree) (dir : Option PathName) :
    (Origin.document content dir).element tree = .ok root := by
  rw [Origin.element, toOption_eq_some_iff.mp h]
  rfl

variable {strict : Prop} (t : Retelling strict) {root root' : Element}

theorem loadSource_retell (loader : Loader) {main : ModuleSource} (hstmt : t.stmt main.root root')
    (hapart : ∀ p q, t.known p → q ∈ main.prefixes → t.rename p = t.rename q → p = q) :
    Agree strict (fun m m' => m' = { m with nsPrefix := t.rename m.nsPrefix })
        (loader.loadSource tree main).1 (loader.loadSource tree (main.retell t.rename root')).1 ∧
      (loader.loadSource tree (main.retell t.rename root')).2 =
        (loader.loadSource tree main).2 := by
  obtain ⟨looked, fault, cache', hrun⟩ :=
    exists_loads tree loader.search loader.cache (Request.ofSource main)
  obtain ⟨looked', hrun'⟩ := hrun.of_alike (alike_retell main t.rename root')
  rw [Loader.loadSource_of_loads hrun, Loader.loadSource_of_loads hrun']
  refine ⟨?_, rfl⟩
  cases fault with
  | some f => exact .error fun _ => rfl
  | none => exact Retold.module ⟨rfl, hstmt, rfl, hapart⟩

/-- Two texts that are related by a retelling are loaded to the same module but for its prefix, or
none is, and the loader is the same afterwards. -/
theorem Loader.load_retold (loader : Loader) {origin origin' : Origin}
    (hroot : origin.element tree = .ok root) (hroot' : origin'.element tree = .ok root')
    (hdir : origin'.dir = origin.dir) (htext : strict → origin'.text = origin.text)
    (hstmt : t.stmt root root')
    (hapart : ∀ p q, t.known p → q ∈ declaredPrefixes root → t.rename p = t.rename q → p = q) :
    Agree strict (fun m m' => m' = { m with nsPrefix := t.rename m.nsPrefix })
        (loader.load tree origin).1 (loader.load tree origin').1 ∧
      (loader.load tree origin').2 = (loader.load tree origin).2 := by
  have hheader := t.ofElement hstmt htext origin.dir
  rw [← Origin.header_of_element hroot, ← hdir, ← Origin.header_of_element hroot'] at hheader
  cases hmain : origin.header tree with
  | error f =>
      cases hmain' : origin'.header tree with
      | ok main' =>
          obtain ⟨main, hok, -⟩ := hheader.exists_of_eq_ok_right hmain'
          cases hmain.symm.trans hok
      | error g =>
          rw [hmain, hmain'] at hheader
          rw [Loader.load_of_header_error hmain, Loader.load_of_header_error hmain']
          cases hheader with
          | error hfault => exact ⟨.error hfault, rfl⟩
  | ok main =>
      obtain ⟨main', hmain', rfl, rfl⟩ := hheader.exists_of_eq_ok hmain
      rw [Loader.load_of_header hmain, Loader.load_of_header hmain']
      -- the header declares what the document does, and nothing else
      refine loadSource_retell t loader hstmt fun p q hp hq => hapart p q hp ?_
      rw [Origin.header_of_element hroot] at hmain
      exact prefixes_subset hmain hq

end Loading

end YangEvolution
