import Mathlib.Data.List.Induction
import YangEvolution.Proofs.FirstMatch
import YangEvolution.Proofs.ScopeSimulation

/-!
Adding definitions. Typedefs and groupings are added among the children of the statement at an
address. Main statement: scopes that the statement is not around correspond to the scopes at the
same addresses afterwards, and so do the definitions that references lead to from them, the
statement itself apart; at the top of a module, that takes that no definition is added before the
first one of its keyword and name.
-/

namespace YangEvolution

namespace Markup.Element

/-- A statement with `added` before the child at `k` of the statement that a path leads to. -/
def insertAt (added : List Element) (k : Nat) : List Nat → Element → Element
  | [], e => { e with children := e.children.take k ++ added ++ e.children.drop k }
  | i :: path, e => { e with children := e.children.modify i (insertAt added k path) }

/-- None of `added` comes before the first child of its tag and name. -/
def Undisturbed (added : List Element) (k : Nat) (e : Element) : Prop :=
  ∀ x ∈ added, ∀ c ∈ e.children.drop k, c.tag = x.tag →
    c.attribute? "name" = x.attribute? "name" →
    ∃ b ∈ e.children.take k, b.tag = x.tag ∧ b.attribute? "name" = x.attribute? "name"

variable {added : List Element} {k : Nat}

@[simp] theorem tag_insertAt (path : List Nat) (e : Element) :
    (insertAt added k path e).tag = e.tag := by
  cases path <;> rfl

@[simp] theorem attribute?_insertAt (path : List Nat) (e : Element) (key : String) :
    (insertAt added k path e).attribute? key = e.attribute? key := by
  cases path <;> rfl

/-- A child is the same afterwards, or it is the one that is changed. -/
theorem forall₂_modify (f : Element → Element) (i : Nat) (stmts : List Element) :
    List.Forall₂ (fun c c' => c' = c ∨ stmts[i]? = some c ∧ c' = f c) stmts
      (stmts.modify i f) := by
  induction stmts generalizing i with
  | nil => cases i <;> exact .nil
  | cons c rest ih =>
      cases i with
      | zero =>
          rw [List.modify_zero_cons]
          exact .cons (.inr ⟨rfl, rfl⟩) (List.forall₂_same.mpr fun _ _ => .inl rfl)
      | succ i =>
          rw [List.modify_succ_cons]
          exact .cons (.inl rfl) (ih i)

theorem plain_of_forall₂ {R : Element → Element → Prop} {stmts stmts' : List Element}
    (h : List.Forall₂ R stmts stmts') (htag : ∀ c c', R c c' → c'.tag = c.tag) :
    List.Forall₂ R (plain stmts) (plain stmts') :=
  filter_of_forall₂ h fun c c' hc => by rw [htag c c' hc]

theorem plain_insertAt_nil (hadded : ∀ x ∈ added, isDefinitionTag x.tag = true) (e : Element) :
    plain (insertAt added k [] e).children = plain e.children := by
  have hnone : added.filter (fun x => !isDefinitionTag x.tag) = [] := by
    simpa using hadded
  rw [insertAt, plain, List.filter_append, List.filter_append, hnone, List.append_nil,
    ← List.filter_append, List.take_append_drop, plain]

theorem fits_of_modified {path : List Nat} {i : Nat} {stmts : List Element} {c c' : Element}
    (h : c' = c ∨ stmts[i]? = some c ∧ c' = insertAt added k path c) :
    c'.tag = c.tag ∧ ∀ key, c'.attribute? key = c.attribute? key := by
  rcases h with rfl | ⟨-, rfl⟩
  · exact ⟨rfl, fun _ => rfl⟩
  · exact ⟨tag_insertAt path c, attribute?_insertAt path c⟩

theorem skeleton_eq_of_forall₂ {e e' : Element} {children : List Element}
    (he : e' = { e with children })
    (h : List.Forall₂ (fun c c' : Element => c'.skeleton = c.skeleton) (plain e.children)
      (plain children)) : e'.skeleton = e.skeleton := by
  have hmap : (plain children).map skeleton = (plain e.children).map skeleton := by
    refine List.forall₂_eq_eq_eq ▸ ?_
    rw [List.forall₂_map_left_iff, List.forall₂_map_right_iff]
    exact h.flip
  obtain ⟨tag, nsPrefix, attributes, children', text⟩ := e
  rw [he, skeleton, skeleton, skeletons_eq_map, skeletons_eq_map, hmap]

/-- Definitions can be added anywhere without a change of the skeleton. -/
theorem skeleton_insertAt (hadded : ∀ x ∈ added, isDefinitionTag x.tag = true) (path : List Nat)
    (e : Element) : (insertAt added k path e).skeleton = e.skeleton := by
  induction path generalizing e with
  | nil =>
      refine skeleton_eq_of_forall₂ rfl ?_
      have hplain := plain_insertAt_nil (k := k) hadded e
      rw [insertAt] at hplain
      rw [hplain]
      exact List.forall₂_same.mpr fun _ _ => rfl
  | cons i path ih =>
      refine skeleton_eq_of_forall₂ rfl ?_
      refine (plain_of_forall₂ (forall₂_modify _ i e.children)
        fun c c' hc => (fits_of_modified hc).1).imp ?_
      rintro c _ (rfl | ⟨-, rfl⟩)
      · rfl
      · exact ih c

end Markup.Element

namespace Yin

open Text Markup Outcome

open Element (plain isDefinitionTag)

def ModuleSource.insertAt (added : List Element) (k : Nat) (path : List Nat) (m : ModuleSource) :
    ModuleSource :=
  { m with root := m.root.insertAt added k path }

namespace Environment

/-- The modules with `added` before the child at `k` of the statement at an address. -/
def insertAt (env : Environment) (added : List Element) (k : Nat) (a : Address) : Environment :=
  match a.module with
  | none => { env with main := env.main.insertAt added k a.path }
  | some name =>
    { env with imports := env.imports.map fun (key, m) =>
        (key, if key = name then m.insertAt added k a.path else m) }

end Environment

variable {env : Environment} {added : List Element} {k : Nat} {a : Address}

/-! ### Module sources -/

theorem lookup_map (f : String → ModuleSource → ModuleSource) (cache : ModuleCache)
    (name : String) : (cache.map fun (key, m) => (key, f key m)).lookup name =
      (cache.lookup name).map (f name) := by
  induction cache with
  | nil => rfl
  | cons entry rest ih =>
      obtain ⟨key, m⟩ := entry
      by_cases h : name = key
      · subst h
        simp
      · have hne : (name == key) = false := by simpa using h
        simp only [List.map_cons, List.lookup_cons, hne, ih]

theorem source?_insertAt (key : Option String) :
    (env.insertAt added k a).source? key =
      (env.source? key).map fun m => if key = a.module then m.insertAt added k a.path else m := by
  obtain ⟨module, path⟩ := a
  cases module with
  | none => cases key <;> simp [Environment.insertAt, Environment.source?]
  | some name =>
      cases key with
      | none => simp [Environment.insertAt, Environment.source?]
      | some key =>
          simp only [Environment.insertAt, Environment.source?, Option.some.injEq]
          exact lookup_map (fun key m => if key = name then m.insertAt added k path else m) _ _

theorem source?_insertAt_of_ne {key : Option String} (hkey : key ≠ a.module) :
    (env.insertAt added k a).source? key = env.source? key := by
  rw [source?_insertAt]
  simp [hkey]

theorem source?_insertAt_self {source : ModuleSource} (h : env.source? a.module = some source) :
    (env.insertAt added k a).source? a.module = some (source.insertAt added k a.path) := by
  rw [source?_insertAt, h]
  simp

@[simp] theorem main_insertAt_name : (env.insertAt added k a).main.name = env.main.name := by
  unfold Environment.insertAt
  split <;> rfl

@[simp] theorem keyOf_insertAt (name : String) :
    (env.insertAt added k a).keyOf name = env.keyOf name := by
  simp [Environment.keyOf]

@[simp] theorem nodeName_insertAt (name : String) :
    (env.insertAt added k a).nodeName name = env.nodeName name := by
  unfold Environment.nodeName Environment.insertAt
  split <;> rfl

/-- The header of a module is read in the same way with more definitions in the module. -/
theorem ofElement_insertAt (hadded : ∀ x ∈ added, isDefinitionTag x.tag = true) (origin : String)
    (dir : Option PathName) (path : List Nat) (root : Element) :
    ModuleSource.ofElement origin dir (root.insertAt added k path) =
      (·.insertAt added k path) <$> ModuleSource.ofElement origin dir root := by
  rw [ofElement_of_skeleton origin dir (Element.skeleton_insertAt hadded path root)]
  simp only [ModuleSource.ofElement, map_bind]
  rfl

/-! ### The way to the statement -/

section Frames

variable (root : Element) (added : List Element) (k : Nat) (path : List Nat)

/-- The statements on the way to the one that is added to, before and afterwards; at the top of a
module, the way ends where it begins. -/
def Frame (t t' : List Element) : Prop :=
  ∃ p, p <+: path ∧ (p = path → path = []) ∧ chain? [root] p = some t ∧
    chain? [root.insertAt added k path] p = some t'

/-- The next statement on the way. -/
def Step (t t' : List Element) (e e' : Element) : Prop :=
  ∃ p i, p ++ [i] <+: path ∧ chain? [root] p = some t ∧
    chain? [root.insertAt added k path] p = some t' ∧
    chain? [root] (p ++ [i]) = some (e :: t) ∧
    chain? [root.insertAt added k path] (p ++ [i]) = some (e' :: t')

variable {root added k path} {t t' : List Element} {e e' : Element}

theorem frame_root : Frame root added k path [root] [root.insertAt added k path] :=
  ⟨[], List.nil_prefix, Eq.symm, rfl, rfl⟩

theorem Step.frame (h : Step root added k path t t' e e') : Frame root added k path t t' := by
  obtain ⟨p, i, hp, ht, ht', -, -⟩ := h
  refine ⟨p, (List.prefix_append p [i]).trans hp, ?_, ht, ht'⟩
  rintro rfl
  exact absurd hp.length_le (by simp)

theorem Step.path_ne_nil (h : Step root added k path t t' e e') : path ≠ [] := by
  obtain ⟨p, i, hp, -⟩ := h
  rintro rfl
  exact absurd hp.length_le (by simp)

/-- The way goes on to the next statement, unless that is the one that is added to. -/
theorem Step.enter (h : Step root added k path t t' e e')
    (hend : chain? [root] path ≠ some (e :: t)) :
    Frame root added k path (e :: t) (e' :: t') := by
  obtain ⟨p, i, hp, -, -, ht, ht'⟩ := h
  refine ⟨p ++ [i], hp, ?_, ht, ht'⟩
  rintro rfl
  exact absurd ht hend

theorem chain?_insertAt (added : List Element) (k : Nat) (rest : List Nat)
    {a : Element} {above : List Element} (above' : List Element)
    (h : chain? (a :: above) path = some (e :: t)) :
    ∃ t', chain? (a.insertAt added k (path ++ rest) :: above') path =
      some (e.insertAt added k rest :: t') := by
  induction path generalizing a above above' with
  | nil =>
      cases h
      exact ⟨above', rfl⟩
  | cons i path ih =>
      obtain ⟨c, hc, h⟩ := Option.bind_eq_some_iff.mp h
      have hc' : (a.children.modify i (Element.insertAt added k (path ++ rest)))[i]? =
          some (c.insertAt added k (path ++ rest)) := by
        rw [List.getElem?_modify_eq, hc]
        rfl
      obtain ⟨t', ht'⟩ := ih (a.insertAt added k (i :: path ++ rest) :: above') h
      refine ⟨t', ?_⟩
      rw [List.cons_append, Element.insertAt, chain?, hc']
      exact ht'

theorem Step.skeleton (hadded : ∀ x ∈ added, isDefinitionTag x.tag = true)
    (h : Step root added k path t t' e e') : e'.skeleton = e.skeleton := by
  obtain ⟨p, i, ⟨rest, rfl⟩, -, -, ht, ht'⟩ := h
  obtain ⟨above', habove'⟩ := chain?_insertAt added k rest [] ht
  cases ht'.symm.trans habove'
  exact Element.skeleton_insertAt hadded rest e

/-- Before the statement that is added to, only the next statement on the way is changed. -/
theorem Frame.cases_of_ne_nil (hpath : path ≠ []) (h : Frame root added k path t t') :
    ∃ a above above' i rest, t = a :: above ∧ t' = a.insertAt added k (i :: rest) :: above' ∧
      (∀ c, a.children[i]? = some c → Step root added k path t t' c (c.insertAt added k rest)) ∧
      (above = [] ∨ Frame root added k path above above') := by
  obtain ⟨p, ⟨rest, rfl⟩, hend, ht, ht'⟩ := h
  -- what is left of the way has a next statement, as the frame is not where it ends
  cases rest with
  | nil => exact absurd (hend (List.append_nil p).symm) hpath
  | cons i rest =>
      cases t with
      | nil => exact absurd (length_of_chain? ht) (by simp; omega)
      | cons a above =>
          obtain ⟨above', habove'⟩ := chain?_insertAt added k (i :: rest) [] ht
          cases ht'.symm.trans habove'
          refine ⟨a, above, above', i, rest, rfl, rfl, fun c hc => ?_, ?_⟩
          · refine ⟨p, i, ⟨rest, by simp⟩, ht, ht', chain?_concat_eq_some ht hc, ?_⟩
            refine chain?_concat_eq_some ht' ?_
            rw [Element.insertAt, List.getElem?_modify_eq, hc]
            rfl
          · rcases List.eq_nil_or_concat p with rfl | ⟨p, j, rfl⟩
            · cases ht
              exact .inl rfl
            · rw [List.concat_eq_append] at ht ht' ⊢
              obtain ⟨_, _, _, hbefore, -, heq⟩ := chain?_concat ht
              obtain ⟨_, _, _, hbefore', -, heq'⟩ := chain?_concat ht'
              cases heq
              cases heq'
              refine .inr ⟨p, ⟨j :: i :: rest, by simp⟩, fun hp => ?_, hbefore, hbefore'⟩
              exact absurd (congrArg List.length hp) (by simp)

theorem findNamed?_of_undisturbed (h : root.Undisturbed added k) {keyword name : String}
    {d : Element} (hd : findNamed? root keyword name = some d) :
    findNamed? (root.insertAt added k []) keyword name = some d := by
  unfold findNamed? at hd ⊢
  rw [Element.insertAt, List.find?_append, List.find?_append]
  rw [← List.take_append_drop k root.children, List.find?_append] at hd
  cases hbefore : (root.children.take k).find?
      (fun c => c.tag == keyword && c.attribute? "name" == some name) with
  | some b =>
      rw [hbefore] at hd
      exact hd
  | none =>
      rw [hbefore, Option.none_or] at hd
      rw [Option.none_or, Option.or_eq_some_iff]
      refine .inr ⟨List.find?_eq_none.mpr fun x hx hfits => ?_, hd⟩
      -- what is added under the name needs another before it, and there is none
      simp only [Bool.and_eq_true, beq_iff_eq] at hfits
      have hfound := List.find?_some hd
      simp only [Bool.and_eq_true, beq_iff_eq] at hfound
      obtain ⟨b, hb, htag, hname⟩ := h x hx d (List.mem_of_find?_eq_some hd)
        (hfound.1.trans hfits.1.symm) (hfound.2.trans hfits.2.symm)
      exact List.find?_eq_none.mp hbefore b hb (by simp [htag, hname, hfits])

theorem findNamed?_insertAt_cons (added : List Element) (k : Nat) (a : Element) (i : Nat)
    (rest : List Nat) (keyword name : String) :
    Option.Rel (fun c c' => c' = c ∨ a.children[i]? = some c ∧ c' = c.insertAt added k rest)
      (findNamed? a keyword name) (findNamed? (a.insertAt added k (i :: rest)) keyword name) :=
  find?_of_forall₂ (Element.forall₂_modify _ i a.children) fun c c' hc => by
    rw [(Element.fits_of_modified hc).1, (Element.fits_of_modified hc).2]

/-- What the statement of a frame has in it, before and afterwards. -/
structure Resembles (root : Element) (added : List Element) (k : Nat) (path : List Nat)
    (t t' : List Element) (a a' : Element) : Prop where
  plain : List.Forall₂ (fun c c' => c' = c ∨ Step root added k path t t' c c')
    (plain a.children) (plain a'.children)
  some : ∀ {keyword name d}, findNamed? a keyword name = some d →
    ∃ d', findNamed? a' keyword name = some d' ∧ (d' = d ∨ Step root added k path t t' d d')

theorem Frame.cases (hadded : ∀ x ∈ added, isDefinitionTag x.tag = true)
    (hroot : path = [] → root.Undisturbed added k) (h : Frame root added k path t t') :
    ∃ a above a' above', t = a :: above ∧ t' = a' :: above' ∧
      Resembles root added k path t t' a a' ∧
      (above = [] ∨ Frame root added k path above above' ∧
        ∀ keyword name, findNamed? a keyword name = none → findNamed? a' keyword name = none) := by
  by_cases hpath : path = []
  · -- the module itself is added to, and no other statement is on the way
    subst hpath
    obtain ⟨p, hp, -, ht, ht'⟩ := h
    obtain rfl := List.prefix_nil.mp hp
    cases ht
    cases ht'
    refine ⟨root, [], _, [], rfl, rfl, ⟨?_, fun hd => ?_⟩, .inl rfl⟩
    · rw [Element.plain_insertAt_nil hadded]
      exact List.forall₂_same.mpr fun _ _ => .inl rfl
    · exact ⟨_, findNamed?_of_undisturbed (hroot rfl) hd, .inl rfl⟩
  · -- one child is changed, and it keeps its tag and its name
    obtain ⟨a, above, above', i, rest, rfl, rfl, hstep, habove⟩ := h.cases_of_ne_nil hpath
    have hmodified := Element.forall₂_modify (Element.insertAt added k rest) i a.children
    have hrelated : ∀ c c', c' = c ∨ a.children[i]? = some c ∧ c' = c.insertAt added k rest →
        c' = c ∨ Step root added k path (a :: above)
          (a.insertAt added k (i :: rest) :: above') c c' := by
      rintro c _ (rfl | ⟨hc, rfl⟩)
      · exact .inl rfl
      · exact .inr (hstep c hc)
    refine ⟨a, above, _, above', rfl, rfl, ⟨?_, fun {keyword name d} hd => ?_⟩,
      habove.imp id fun habove => ⟨habove, fun keyword name hnone => ?_⟩⟩
    · exact (Element.plain_of_forall₂ hmodified
        fun c c' hc => (Element.fits_of_modified hc).1).imp hrelated
    · have hfound := findNamed?_insertAt_cons added k a i rest keyword name
      rw [hd] at hfound
      generalize findNamed? (a.insertAt added k (i :: rest)) keyword name = found at hfound ⊢
      cases hfound with
      | some hc => exact ⟨_, rfl, hrelated _ _ hc⟩
    · have hfound := findNamed?_insertAt_cons added k a i rest keyword name
      rw [hnone] at hfound
      generalize findNamed? (a.insertAt added k (i :: rest)) keyword name = found at hfound ⊢
      cases hfound
      rfl

/-- The innermost definition of a name among the statements of a frame. -/
theorem Frame.findEnclosed? (hadded : ∀ x ∈ added, isDefinitionTag x.tag = true)
    (hroot : path = [] → root.Undisturbed added k) (h : Frame root added k path t t')
    {keyword name : String} {d : Element} {u : List Element}
    (hd : Yin.findEnclosed? keyword name t = some (d, u)) :
    ∃ d' u', Yin.findEnclosed? keyword name t' = some (d', u') ∧ Frame root added k path u u' ∧
      (d' = d ∨ Step root added k path u u' d d') := by
  induction t generalizing t' with
  | nil => cases hd
  | cons b rest ih =>
      obtain ⟨a, above, a', above', heq, rfl, hresembles, habove⟩ := h.cases hadded hroot
      cases heq
      rw [Yin.findEnclosed?] at hd ⊢
      split at hd
      · rename_i found hfound
        cases hd
        obtain ⟨d', hd', hrelated⟩ := hresembles.some hfound
        rw [hd']
        exact ⟨d', _, rfl, h, hrelated⟩
      · rename_i hnone
        rcases habove with rfl | ⟨habove, hnone'⟩
        · cases hd
        · rw [hnone' keyword name hnone]
          exact ih habove hd

end Frames

/-! ### Corresponding scopes -/

section Scopes

variable (env : Environment) (added : List Element) (k : Nat) (a : Address) (source : ModuleSource)

/-- Other modules are as they were. -/
inductive Updated : ModuleSource → ModuleSource → Prop where
  | foreign {m : ModuleSource} {key : Option String} : key ≠ a.module →
      env.source? key = some m → Updated m m
  | own : Updated source (source.insertAt added k a.path)

/-- Scopes in other modules are as they were; in the module of the address, the enclosing statements
differ only on the way to the statement that is added to. -/
inductive Related : Scope → Scope → Prop where
  | foreign {s : Scope} {key : Option String} : key ≠ a.module →
      env.source? key = some s.source → Related s s
  | own {l t t' : List Element} : Frame source.root added k a.path t t' →
      Related ⟨source, l ++ t⟩ ⟨source.insertAt added k a.path, l ++ t'⟩

/-- Statements are as they were, or they are on the way to the statement that is added to. -/
inductive Matched : Scope → Scope → Element → Element → Prop where
  | same {s s' : Scope} {e : Element} : Related env added k a source s s' → Matched s s' e e
  | step {t t' : List Element} {e e' : Element} : Step source.root added k a.path t t' e e' →
      Matched ⟨source, t⟩ ⟨source.insertAt added k a.path, t'⟩ e e'

/-- The statement that is added to, if that is not a whole module. -/
def IsTarget (s : Scope) (e : Element) : Prop :=
  a.path ≠ [] ∧ s.source = source ∧ chain? [source.root] a.path = some (e :: s.ancestors)

/-- Definitions are added at an address of a module. -/
structure Adds : Prop where
  module : env.source? a.module = some source
  definitions : ∀ x ∈ added, isDefinitionTag x.tag = true
  root : a.path = [] → source.root.Undisturbed added k

variable {env added k a source} {s s' : Scope} {e e' : Element}

theorem Updated.header {m m' : ModuleSource} (h : Updated env added k a source m m') :
    ∃ root, m' = { m with root } := by
  cases h with
  | foreign _ _ => exact ⟨m.root, rfl⟩
  | own => exact ⟨_, rfl⟩

theorem Related.updated (h : Related env added k a source s s') :
    Updated env added k a source s.source s'.source := by
  cases h with
  | foreign hkey hsource => exact .foreign hkey hsource
  | own _ => exact .own

theorem Matched.related (h : Matched env added k a source s s' e e') :
    Related env added k a source s s' := by
  cases h with
  | same hs => exact hs
  | step hstep => exact .own (l := []) hstep.frame

theorem Matched.enter (h : Matched env added k a source s s' e e')
    (htarget : ¬ IsTarget a source s e) :
    Related env added k a source (s.enter e) (s'.enter e') := by
  cases h with
  | same hs =>
      cases hs with
      | foreign hkey hsource => exact .foreign hkey hsource
      | @own l t t' hframe => exact .own (l := e :: l) hframe
  | @step t t' _ _ hstep =>
      exact .own (l := []) (hstep.enter fun hend => htarget ⟨hstep.path_ne_nil, rfl, hend⟩)

variable (h : Adds env added k a source)

include h

theorem Adds.moduleOfPrefix {m m' o : ModuleSource} (hm : Updated env added k a source m m')
    {given : String} (ho : env.moduleOfPrefix m given = .ok o) :
    ∃ o', (env.insertAt added k a).moduleOfPrefix m' given = .ok o' ∧
      Updated env added k a source o o' := by
  obtain ⟨root, rfl⟩ := hm.header
  by_cases hgiven : given = m.nsPrefix
  · rw [Environment.moduleOfPrefix, if_pos hgiven] at ho
    cases ho
    exact ⟨_, if_pos hgiven, hm⟩
  · have hgiven' : given ≠ ({ m with root } : ModuleSource).nsPrefix := hgiven
    obtain ⟨name, hname, ho⟩ := (moduleOfPrefix_eq_ok_iff hgiven).mp ho
    by_cases hkey : env.keyOf name = a.module
    · rw [hkey, h.module] at ho
      cases ho
      refine ⟨_, (moduleOfPrefix_eq_ok_iff hgiven').mpr ⟨name, hname, ?_⟩, .own⟩
      rw [keyOf_insertAt, hkey]
      exact source?_insertAt_self h.module
    · refine ⟨o, (moduleOfPrefix_eq_ok_iff hgiven').mpr ⟨name, hname, ?_⟩, .foreign hkey ho⟩
      rw [keyOf_insertAt, source?_insertAt_of_ne hkey]
      exact ho

theorem Adds.qualify (hs : Related env added k a source s s') {reference : String} {name : QName}
    (hname : env.qualify s reference = .ok name) :
    (env.insertAt added k a).qualify s' reference = .ok name := by
  obtain ⟨root, hheader⟩ := hs.updated.header
  unfold Environment.qualify Environment.splitOwner at hname ⊢
  generalize splitReference reference = parts at hname ⊢
  obtain ⟨given | given, localName⟩ := parts
  · rw [hheader]
    exact hname
  · obtain ⟨owner, howner, hqname⟩ := exists_of_bind_eq_ok hname
    obtain ⟨m, hm, heq⟩ := exists_of_bind_eq_ok howner
    cases heq
    obtain ⟨m', hm', hupdated⟩ := h.moduleOfPrefix hs.updated hm
    obtain ⟨root', rfl⟩ := hupdated.header
    simp only [hm', ok_bind]
    exact hqname

theorem Adds.findEnclosed? {l t t' : List Element} (hframe : Frame source.root added k a.path t t')
    {keyword name : String} {d : Element} {u : List Element}
    (hd : Yin.findEnclosed? keyword name (l ++ t) = some (d, u)) :
    ∃ d' u', Yin.findEnclosed? keyword name (l ++ t') = some (d', u') ∧
      Matched env added k a source ⟨source, u⟩ ⟨source.insertAt added k a.path, u'⟩ d d' := by
  induction l with
  | nil =>
      obtain ⟨d', u', hd', hframe', rfl | hstep⟩ :=
        hframe.findEnclosed? h.definitions h.root hd
      · exact ⟨_, u', hd', .same (.own (l := []) hframe')⟩
      · exact ⟨d', u', hd', .step hstep⟩
  | cons b l ih =>
      rw [List.cons_append, Yin.findEnclosed?] at hd ⊢
      cases hfound : findNamed? b keyword name with
      | some found =>
          rw [hfound] at hd
          cases hd
          exact ⟨_, _, rfl, .same (.own (l := b :: l) hframe)⟩
      | none =>
          rw [hfound] at hd
          exact ih hd

theorem Adds.enclosed (hs : Related env added k a source s s') {keyword name : String}
    {d : Element} {i : Scope}
    (hd : (Yin.findEnclosed? keyword name s.ancestors).map
      (fun found => (found.1, Scope.mk s.source found.2)) = some (d, i)) :
    ∃ d' i', (Yin.findEnclosed? keyword name s'.ancestors).map
        (fun found => (found.1, Scope.mk s'.source found.2)) = some (d', i') ∧
      Matched env added k a source i i' d d' := by
  obtain ⟨⟨stmt, u⟩, hfound, heq⟩ := Option.map_eq_some_iff.mp hd
  cases heq
  cases hs with
  | foreign hkey hsource => exact ⟨_, _, hd, .same (.foreign hkey hsource)⟩
  | own hframe =>
      obtain ⟨d', u', hd', hmatched⟩ := h.findEnclosed? hframe hfound
      exact ⟨d', _, Option.map_eq_some_iff.mpr ⟨_, hd', rfl⟩, hmatched⟩

theorem Adds.named {m m' : ModuleSource} (hm : Updated env added k a source m m')
    {keyword name : String} {d : Element} (hd : findNamed? m.root keyword name = some d) :
    ∃ d', findNamed? m'.root keyword name = some d' ∧
      Matched env added k a source (.top m) (.top m') d d' := by
  cases hm with
  | foreign hkey hsource => exact ⟨d, hd, .same (.foreign hkey hsource)⟩
  | own =>
      have hroot : Frame source.root added k a.path [source.root] _ := frame_root
      obtain ⟨_, _, _, _, heq, heq', hresembles, -⟩ := hroot.cases h.definitions h.root
      cases heq
      cases heq'
      obtain ⟨d', hd', rfl | hstep⟩ := hresembles.some hd
      · exact ⟨_, hd', .same (.own (l := []) hroot)⟩
      · exact ⟨d', hd', .step hstep⟩

/-- A reference leads to corresponding definitions. -/
theorem Adds.findDefinition (hs : Related env added k a source s s') {keyword reference : String}
    {d : Element} {i : Scope}
    (hd : env.findDefinition keyword s reference = .ok (some (d, i))) :
    ∃ d' i', (env.insertAt added k a).findDefinition keyword s' reference = .ok (some (d', i')) ∧
      Matched env added k a source i i' d d' := by
  have hsame : s'.source.nsPrefix = s.source.nsPrefix := by
    obtain ⟨root, hheader⟩ := hs.updated.header
    rw [hheader]
  unfold Environment.findDefinition at hd ⊢
  dsimp only at hd ⊢
  generalize splitReference reference = parts at hd ⊢
  obtain ⟨given | given, name⟩ := parts
  · obtain ⟨d', i', hd', hmatched⟩ := h.enclosed hs (Except.ok.inj hd)
    exact ⟨d', i', congrArg _ hd', hmatched⟩
  · dsimp only at hd ⊢
    rw [hsame]
    split at hd
    · rename_i hgiven
      rw [if_pos hgiven]
      obtain ⟨d', i', hd', hmatched⟩ := h.enclosed hs (Except.ok.inj hd)
      exact ⟨d', i', congrArg _ hd', hmatched⟩
    · rename_i hgiven
      rw [if_neg hgiven]
      obtain ⟨m, hm, hd⟩ := exists_of_bind_eq_ok hd
      obtain ⟨stmt, hstmt, heq⟩ := Option.map_eq_some_iff.mp (Except.ok.inj hd)
      cases heq
      obtain ⟨m', hm', hupdated⟩ := h.moduleOfPrefix hs.updated hm
      obtain ⟨d', hd', hmatched⟩ := h.named hupdated hstmt
      refine ⟨d', .top m', ?_, hmatched⟩
      simp only [hm', ok_bind, hd', Option.map_some]

theorem Adds.children (he : Matched env added k a source s s' e e')
    (htarget : ¬ IsTarget a source s e) :
    List.Forall₂ (Matched env added k a source (s.enter e) (s'.enter e')) (plain e.children)
      (plain e'.children) := by
  have hentered := he.enter htarget
  cases he with
  | same hs => exact List.forall₂_same.mpr fun _ _ => .same hentered
  | step hstep =>
      have hframe := hstep.enter fun hend => htarget ⟨hstep.path_ne_nil, rfl, hend⟩
      obtain ⟨_, _, _, _, heq, heq', hresembles, -⟩ := hframe.cases h.definitions h.root
      cases heq
      cases heq'
      refine hresembles.plain.imp ?_
      rintro c _ (rfl | hc)
      · exact .same hentered
      · exact .step hc

theorem Adds.skeleton (he : Matched env added k a source s s' e e') :
    e'.skeleton = e.skeleton := by
  cases he with
  | same _ => rfl
  | step hstep => exact hstep.skeleton h.definitions

/-- Scopes and statements before and after definitions are added. -/
def Adds.simulation : Simulation env (env.insertAt added k a) where
  scopes := Related env added k a source
  stmts := Matched env added k a source
  marked := IsTarget a source
  owner hs := by
    obtain ⟨root, hheader⟩ := hs.updated.header
    rw [Scope.owner, hheader]
    rfl
  uri hs := by
    obtain ⟨root, hheader⟩ := hs.updated.header
    rw [hheader]
  revision hs := by
    obtain ⟨root, hheader⟩ := hs.updated.header
    rw [hheader]
  qualify hs hname := h.qualify hs hname
  find hs _ hd := h.findDefinition hs hd
  scope he := he.related
  tag he := Element.reading_skeleton.tag (h.skeleton he)
  skeleton he _ := h.skeleton he
  enter he htarget := he.enter htarget
  children he htarget := h.children he htarget

end Scopes

/-! ### Statements at addresses -/

section Addresses

variable {root : Element} {path r : List Nat} {t t' : List Element}

/-- The chains at a path, before and afterwards, are on the way to the statement that is added to,
or they leave it by statements that are as they were. -/
inductive Aligned (root : Element) (added : List Element) (k : Nat) (path r : List Nat) :
    List Element → List Element → Prop where
  | on {t t' : List Element} : r <+: path → Frame root added k path t t' →
      Aligned root added k path r t t'
  | off {c : Element} {l t t' : List Element} : Frame root added k path t t' →
      Aligned root added k path r (c :: l ++ t) (c :: l ++ t')

theorem Aligned.step (h : Aligned root added k path r t t') (hr : ¬ path <+: r)
    (ht : chain? [root] r = some t) (ht' : chain? [root.insertAt added k path] r = some t')
    {x : Nat} {c : Element} (hc : chain? [root] (r ++ [x]) = some (c :: t)) :
    ∃ c', chain? [root.insertAt added k path] (r ++ [x]) = some (c' :: t') ∧
      (r ++ [x] <+: path ∨ c' = c) := by
  obtain ⟨b, rest, _, -, hchild, heq⟩ := chain?_concat hc
  cases heq
  cases h with
  | on hp _ =>
      obtain ⟨way, rfl⟩ := hp
      cases way with
      | nil => exact absurd (by simp) hr
      | cons y way =>
          obtain ⟨above', habove'⟩ := chain?_insertAt added k (y :: way) [] ht
          cases ht'.symm.trans habove'
          by_cases hxy : y = x
          · subst hxy
            refine ⟨c.insertAt added k way, chain?_concat_eq_some ht' ?_, .inl ⟨way, by simp⟩⟩
            rw [Element.insertAt, List.getElem?_modify_eq, hchild]
            rfl
          · refine ⟨c, chain?_concat_eq_some ht' ?_, .inr rfl⟩
            rw [Element.insertAt, List.getElem?_modify_ne _ _ hxy]
            exact hchild
  | off _ => exact ⟨c, chain?_concat_eq_some ht' hchild, .inr rfl⟩

/-- No path that does not lead to the statement that is added to is lost. -/
theorem exists_aligned_of_chain? (added : List Element) (k : Nat) (hr : ¬ path <+: r)
    (ht : chain? [root] r = some t) :
    ∃ t', chain? [root.insertAt added k path] r = some t' ∧ Aligned root added k path r t t' := by
  -- from the top down: once off the way, all children are as they were
  induction r using List.reverseRecOn generalizing t with
  | nil =>
      cases ht
      exact ⟨_, rfl, .on List.nil_prefix frame_root⟩
  | append_singleton r x ih =>
      obtain ⟨b, rest, c, hbefore, hc, rfl⟩ := chain?_concat ht
      have hbefore_not : ¬ path <+: r := fun hp => hr (hp.trans (List.prefix_append _ _))
      obtain ⟨t', ht', haligned⟩ := ih hbefore_not hbefore
      obtain ⟨c', hc', hon⟩ := haligned.step hbefore_not hbefore ht' ht
      refine ⟨c' :: t', hc', ?_⟩
      rcases hon with hon | rfl
      · refine .on hon ⟨r ++ [x], hon, ?_, ht, hc'⟩
        rintro rfl
        exact absurd (List.prefix_refl _) hr
      · generalize htail : b :: rest = t at haligned
        cases haligned with
        | on _ hframe => exact .off (l := []) hframe
        | @off d l _ _ hframe => exact .off (l := d :: l) hframe

variable {s : Scope} {e : Element} {source : ModuleSource}

/-- A statement that the one that is added to is not around corresponds to the statement at its
address. -/
theorem Adds.exists_matched (h : Adds env added k a source) {d : Address}
    (hd : env.scopeAt? d = some (s.enter e)) (hs : s.ancestors ≠ [])
    (hencloses : ¬ a.Encloses d) :
    ∃ s' e', (env.insertAt added k a).scopeAt? d = some (s'.enter e') ∧
      Matched env added k a source s s' e e' := by
  obtain ⟨hsource, hchain⟩ := scopeAt?_eq_some_iff.mp hd
  by_cases hmodule : d.module = a.module
  · rw [hmodule, h.module] at hsource
    obtain ⟨m, ancestors⟩ := s
    obtain rfl : m = source := (Option.some.inj hsource).symm
    rcases List.eq_nil_or_concat d.path with hnil | ⟨r, x, hpath⟩
    · rw [hnil] at hchain
      exact absurd (List.cons.inj (Option.some.inj hchain)).2.symm hs
    · rw [List.concat_eq_append] at hpath
      -- the statement around it is not in the one that is added to either, nor is it that one
      have hr : ¬ a.path <+: r := by
        intro hp
        refine hencloses ⟨hmodule.symm, hpath ▸ hp.trans (List.prefix_append _ _), fun heq => ?_⟩
        rw [heq, hpath] at hp
        exact absurd hp.length_le (by simp)
      rw [hpath] at hchain
      obtain ⟨b, rest, c, hbefore, -, heq⟩ := chain?_concat hchain
      cases heq
      obtain ⟨t', ht', haligned⟩ := exists_aligned_of_chain? added k hr hbefore
      obtain ⟨e', he', hon⟩ := haligned.step hr hbefore ht' hchain
      have hscope : (env.insertAt added k a).scopeAt? d =
          some (Scope.enter ⟨m.insertAt added k a.path, t'⟩ e') := by
        refine scopeAt?_eq_some_iff.mpr ⟨?_, ?_⟩
        · rw [hmodule]
          exact source?_insertAt_self h.module
        · rw [hpath]
          exact he'
      refine ⟨_, e', hscope, ?_⟩
      rcases hon with hon | rfl
      · exact .step ⟨r, x, hon, hbefore, ht', hchain, he'⟩
      · refine .same ?_
        generalize htail : b :: rest = t at haligned
        cases haligned with
        | on _ hframe => exact .own (l := []) hframe
        | @off c l _ _ hframe => exact .own (l := c :: l) hframe
  · refine ⟨s, e, scopeAt?_eq_some_iff.mpr ⟨?_, hchain⟩, .same (.foreign hmodule hsource)⟩
    rw [source?_insertAt_of_ne hmodule]
    exact hsource

end Addresses

end Yin

end YangEvolution
