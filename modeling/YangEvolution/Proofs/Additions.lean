import Mathlib.Logic.Relation
import YangEvolution.Proofs.Counterparts
import YangEvolution.Proofs.MissingNodes

/-!
Definitions that are added to the new module. An addition puts a node, with all that is below it, in
at any place of a tree, or a type definition, an identity or an augmentation in among the others. It
is free of an old module that has no definition of its name at its place. Main statement: whatever
number of free additions is made to the new module, the catalog stays as it is.
-/

namespace YangEvolution

/-- `Inserted x l l'`: the list `l'` is `l` with `x` put in at some place. -/
inductive Inserted {α : Type} (x : α) : List α → List α → Prop where
  | between (before after : List α) : Inserted x (before ++ after) (before ++ x :: after)

theorem find?_of_inserted {α : Type} {x : α} {l l' : List α} {p : α → Bool}
    (h : Inserted x l l') (hx : p x = false) : l'.find? p = l.find? p := by
  obtain ⟨before, after⟩ := h
  rw [List.find?_append, List.find?_append, List.find?_cons, hx]

namespace SchemaNode

/-- `InsertedAmong n names nodes nodes'`: the node `n` is put in among the nodes, or anywhere below
one of them, and `names` lead to it. -/
inductive InsertedAmong (n : SchemaNode) :
    List String → List SchemaNode → List SchemaNode → Prop where
  | here {nodes nodes' : List SchemaNode} : Inserted n nodes nodes' →
      InsertedAmong n [n.localName] nodes nodes'
  | inside {data : NodeData} {before after children children' : List SchemaNode}
      {names : List String} : InsertedAmong n names children children' →
      InsertedAmong n (data.qname.localName :: names) (before ++ ⟨data, children⟩ :: after)
        (before ++ ⟨data, children'⟩ :: after)

theorem Contains.head? {top n : SchemaNode} {names : List String} (h : top.Contains names n) :
    names.head? = some top.localName := by
  cases h <;> rfl

theorem Contains.exists_child {top n : SchemaNode} {names : List String}
    (h : top.Contains names n) (hlength : 1 < names.length) :
    ∃ c ∈ top.children, c.Contains names.tail n := by
  cases h with
  | self => exact absurd hlength (Nat.lt_irrefl 1)
  | child hc h => exact ⟨_, hc, h⟩

/-- No walk of old nodes gets to what is put in where none of them is. -/
theorem alikeForAll_of_inserted {n : SchemaNode} {names : List String}
    {siblings siblings' : List SchemaNode} (h : InsertedAmong n names siblings siblings')
    {nodes : List SchemaNode} (hnone : ∀ top ∈ nodes, ∀ m, ¬ top.Contains names m) :
    AlikeForAll nodes siblings siblings' := by
  induction h generalizing nodes with
  | @here siblings siblings' hinserted =>
      intro top htop
      have hne : (n.localName == top.localName) = false := by
        refine beq_eq_false_iff_ne.mpr fun heq => hnone top htop top ?_
        rw [heq]
        exact .self top
      have hfind : find? siblings' top.localName = find? siblings top.localName :=
        find?_of_inserted hinserted hne
      rw [hfind]
      exact AlikeForAll.refl nodes siblings top htop
  | @inside data before after children children' names _ ih =>
      intro top htop
      simp only [find?, List.find?_append, List.find?_cons]
      cases hbefore : before.find? fun m => m.localName == top.localName with
      | some m => exact .some (.refl top m)
      | none =>
          have hlocal : ∀ nodes, (SchemaNode.mk data nodes).localName = data.qname.localName :=
            fun _ => rfl
          rw [Option.none_or, Option.none_or, hlocal, hlocal]
          cases hname : data.qname.localName == top.localName with
          | false => exact AlikeForAll.refl nodes after top htop
          | true =>
              -- what is put in is among the children of the counterpart of `top`
              refine .some (alikeFor_iff.mpr ⟨.refl data, ih ?_⟩)
              intro c hc m hm
              refine hnone top htop m ?_
              rw [beq_iff_eq.mp hname]
              exact .child hc hm

end SchemaNode

open SchemaNode

/-- One definition is added to a module, and the old module has none of its name at its place. -/
inductive Module.FreelyAdded (old : Module) : Module → Module → Prop where
  | data {m : Module} {n : SchemaNode} {names : List String} {children : List SchemaNode} :
      InsertedAmong n names m.children children → (∀ k, ¬ old.HasAt names k .data) →
      FreelyAdded old m { m with children }
  | rpc {m : Module} {n : SchemaNode} {names : List String} {rpcs : List SchemaNode} :
      InsertedAmong n names m.rpcs rpcs → (∀ k, ¬ old.HasAt names k .rpcs) →
      FreelyAdded old m { m with rpcs }
  | notification {m : Module} {n : SchemaNode} {names : List String}
      {notifications : List SchemaNode} : InsertedAmong n names m.notifications notifications →
      (∀ k, ¬ old.HasAt names k .notifications) → FreelyAdded old m { m with notifications }
  | augmenting {m : Module} {n : SchemaNode} {names : List String}
      {before after : List Augmentation} {a : Augmentation} {children : List SchemaNode} :
      m.augmentations = before ++ a :: after → InsertedAmong n names a.children children →
      (∀ k, ¬ old.HasAt names k (.augmentation a.target)) →
      FreelyAdded old m { m with augmentations := before ++ { a with children } :: after }
  | augmentation {m : Module} {a : Augmentation} {augmentations : List Augmentation} :
      Inserted a m.augmentations augmentations →
      (∀ b ∈ old.augmentations, b.target ≠ a.target) → FreelyAdded old m { m with augmentations }
  | typedef {m : Module} {t : TypeDef} {typedefs : List TypeDef} :
      Inserted t m.typedefs typedefs →
      (∀ u ∈ old.typedefs, u.qname.localName ≠ t.qname.localName) →
      FreelyAdded old m { m with typedefs }
  | identity {m : Module} {i : Identity} {identities : List Identity} :
      Inserted i m.identities identities →
      (∀ j ∈ old.identities, j.qname.localName ≠ i.qname.localName) →
      FreelyAdded old m { m with identities }

namespace Module

theorem AlikeFor.augmenting {old m : Module} {n : SchemaNode} {names : List String}
    {before after : List Augmentation} {a : Augmentation} {children : List SchemaNode}
    (hsplit : m.augmentations = before ++ a :: after)
    (h : InsertedAmong n names a.children children)
    (hnone : ∀ k, ¬ old.HasAt names k (.augmentation a.target)) {b : Augmentation}
    (hb : b ∈ old.augmentations) :
    Option.Rel (fun c c' => AlikeForAll b.children c.children c'.children)
      (m.findAugmentation? b.target)
      ((before ++ { a with children } :: after).find? fun c => c.target == b.target) := by
  rw [findAugmentation?, hsplit]
  simp only [List.find?_append, List.find?_cons]
  cases before.find? fun c => c.target == b.target with
  | some c => exact .some (.refl _ _)
  | none =>
      cases htarget : a.target == b.target with
      | false =>
          rw [Option.none_or]
          exact optionRel_refl (fun c => .refl b.children c.children) _
      | true =>
          refine .some (alikeForAll_of_inserted h fun top htop k hk => hnone k ?_)
          rw [beq_iff_eq.mp htarget]
          exact .augmentation hb htop hk

/-- After one free addition, each look-up from the old module leads where it led before. -/
theorem AlikeFor.of_freelyAdded {old m m' : Module} (h : old.FreelyAdded m m') :
    old.AlikeFor m m' := by
  have hsame := AlikeFor.refl old m
  cases h with
  | data h hnone =>
      exact { hsame with
        children := alikeForAll_of_inserted h fun _ htop k hk => hnone k (.data htop hk) }
  | rpc h hnone =>
      exact { hsame with
        rpcs := alikeForAll_of_inserted h fun _ htop k hk => hnone k (.rpc htop hk) }
  | notification h hnone =>
      exact { hsame with
        notifications :=
          alikeForAll_of_inserted h fun _ htop k hk => hnone k (.notification htop hk) }
  | augmenting hsplit h hnone =>
      exact { hsame with augmentations := fun _ hb => AlikeFor.augmenting hsplit h hnone hb }
  | @augmentation a augmentations h hnone =>
      refine { hsame with augmentations := fun b hb => ?_ }
      have hfind : findAugmentation? { m with augmentations } b.target =
          m.findAugmentation? b.target :=
        find?_of_inserted h (beq_eq_false_iff_ne.mpr (hnone b hb).symm)
      rw [hfind]
      exact hsame.augmentations b hb
  | @typedef t typedefs h hnone =>
      refine { hsame with typedefs := fun u hu => ?_ }
      have hfind : findTypedef? { m with typedefs } u.qname.localName =
          m.findTypedef? u.qname.localName :=
        find?_of_inserted h (beq_eq_false_iff_ne.mpr (hnone u hu).symm)
      rw [hfind]
      exact hsame.typedefs u hu
  | @identity i identities h hnone =>
      refine { hsame with identities := fun j hj => ?_ }
      have hfind : findIdentity? { m with identities } j.qname.localName =
          m.findIdentity? j.qname.localName :=
        find?_of_inserted h (beq_eq_false_iff_ne.mpr (hnone j hj).symm)
      rw [hfind]
      exact hsame.identities j hj

end Module

namespace Comparison

variable {old new new' : Module} {version : LanguageVersion}

/-- Free additions, one after the other, leave the list of findings as it is. -/
theorem findings_of_freelyAdded (h : Relation.ReflTransGen old.FreelyAdded new new') :
    findings ⟨old, new, version⟩ = findings ⟨old, new', version⟩ := by
  induction h with
  | refl => rfl
  | tail _ hstep ih => exact ih.trans (findings_of_alikeFor (.of_freelyAdded hstep))

/-- Definitions of names that the old module does not have at their places may be added to the new
one in any number, at any place and at any depth: the findings stay the same, in the same order. -/
theorem additions_leave_catalog (old new new' : Module) (version : LanguageVersion)
    (h : Relation.ReflTransGen old.FreelyAdded new new') :
    (catalog ⟨old, new', version⟩).findings = (catalog ⟨old, new, version⟩).findings := by
  rw [catalog, catalog, findings_of_freelyAdded h]

/-- A stop gets an exit before its platform, with a platform of its own, and the module a type. -/
theorem additions_leave_catalog_exit :
    let old := oneStop [facility "platform" .current []]
    let new := oneStop [facility "platform" .obsolete []]
    let stop := [facility "exit" .current [facility "platform" .current []],
      facility "platform" .obsolete []]
    let new' := { oneStop stop with typedefs := [.ofBuiltin .string] }
    Relation.ReflTransGen old.FreelyAdded new new' ∧
      (catalog ⟨old, new', .rfc7950⟩).findings = (catalog ⟨old, new, .rfc7950⟩).findings ∧
      (catalog ⟨old, new', .rfc7950⟩).countOf .status = 1 := by
  intro old new stop new'
  have hexit : old.FreelyAdded new (oneStop stop) := by
    refine .data (@InsertedAmong.inside _ (facility "stop" .current []).data [] [] _ _ _
      (.here (.between [] [facility "platform" .obsolete []]))) ?_
    rintro k ⟨htop, hk⟩
    obtain rfl := List.mem_singleton.mp htop
    obtain ⟨c, hc, hk⟩ := hk.exists_child (by decide)
    obtain rfl := List.mem_singleton.mp hc
    exact absurd hk.head? (by decide)
  have htype : old.FreelyAdded (oneStop stop) new' :=
    .typedef (.between [] []) fun _ ht => absurd ht List.not_mem_nil
  have hadded : Relation.ReflTransGen old.FreelyAdded new new' := .tail (.single hexit) htype
  have hsame := additions_leave_catalog old new new' .rfc7950 hadded
  refine ⟨hadded, hsame, ?_⟩
  rw [Catalog.countOf, hsame]
  decide

end Comparison

end YangEvolution
