import YangEvolution.Loading.Loader
import YangEvolution.Proofs.NodeInvariant

/-!
The nodes of modules that a loader loads, from a file or from a document at hand. Main statement:
they have the documented properties exactly when the refinements in the module and in the groupings
it uses fit the nodes that they lead to, and a refinement of a container shows that not all do.
-/

namespace YangEvolution

open SchemaNode


namespace Loading

open Text Yin

/-- What a module is loaded from. -/
inductive Origin where
  | file (path : PathName)
  | document (content : Bytes) (dir : Option PathName)

/-- The header of the module in it. -/
def Origin.header (tree : FileTree) : Origin → Except LoadFault ModuleSource
  | file path => readSource tree path
  | document content dir => Loader.sourceOf content dir

namespace Loader

def load (loader : Loader) (tree : FileTree) : Origin → Except LoadFault Module × Loader
  | .file path => loader.loadFile tree path
  | .document content dir => loader.loadDocument tree content dir

variable {loader after : Loader} {tree : FileTree} {main : ModuleSource} {m : Module}

theorem load_of_header {origin : Origin} (h : origin.header tree = .ok main) :
    loader.load tree origin = loader.loadSource tree main := by
  cases origin with
  | file path =>
      rw [Origin.header] at h
      rw [load, loadFile, h]
  | document content dir =>
      rw [Origin.header] at h
      rw [load, loadDocument, h]

theorem load_of_header_error {origin : Origin} {f : LoadFault}
    (h : origin.header tree = .error f) : loader.load tree origin = (.error f, loader) := by
  cases origin with
  | file path =>
      rw [Origin.header] at h
      rw [load, loadFile, h]
  | document content dir =>
      rw [Origin.header] at h
      rw [load, loadDocument, h]

theorem exists_header_of_load {origin : Origin} (h : loader.load tree origin = (.ok m, after)) :
    ∃ main, origin.header tree = .ok main := by
  cases hheader : origin.header tree with
  | ok main => exact ⟨main, rfl⟩
  | error fault =>
      rw [load_of_header_error hheader] at h
      cases h

/-- A module is resolved with the imports that the loader keeps afterwards. -/
theorem module_of_load {origin : Origin} (h : loader.load tree origin = (.ok m, after)) :
    ∃ main, origin.header tree = .ok main ∧
      Environment.module ⟨main, after.cache⟩ = .ok m := by
  obtain ⟨main, hmain⟩ := exists_header_of_load h
  rw [load_of_header hmain] at h
  obtain ⟨hresult, rfl⟩ := Prod.mk.inj h
  refine ⟨main, hmain, ?_⟩
  split at hresult
  · cases hresult
  · exact hresult

theorem loadSource_of_no_imports (h : main.imports = []) :
    loader.loadSource tree main = (Environment.module ⟨main, loader.cache⟩, loader) := by
  have hpending : Request.ofSource main = [] := by
    simp [Request.ofSource, h]
  simp [loadSource, hpending, loadImports]

/-- A loaded module has the documented properties at all its nodes exactly when the refinements in
it fit; whatever they set, a node has all that its kind calls for, and a type exactly where its kind
has one. -/
theorem loaded_documented_iff {origin : Origin} (h : loader.load tree origin = (.ok m, after)) :
    ∃ main, origin.header tree = .ok main ∧
      (m.Documented ↔ RefinementsFit ⟨main, after.cache⟩) ∧
      ∀ n, m.HasNode n →
        (n.data.kind ∈ [.leaf, .choice, .anydata, .anyxml] → n.data.mandatory.isSome) ∧
        (n.data.type.isSome ↔ n.data.kind ∈ [.leaf, .leafList]) := by
  obtain ⟨main, hmain, hmodule⟩ := module_of_load h
  refine ⟨main, hmain, documented_iff_refinementsFit hmodule, fun n hn => ?_⟩
  obtain ⟨inner, -, hn⟩ :=
    Everywhere.of_occurs (everywhere_complete_of_module hmodule) (Module.hasNode_iff.mp hn)
  obtain ⟨hmandatory, htype⟩ := (everywhere_iff.mp hn).1
  rw [← NodeKind.isMandatoryAware_iff, ← NodeKind.isTyped_iff]
  exact ⟨hmandatory, Bool.eq_iff_iff.mp htype⟩

/-- Whether a document is loaded without imports, as a module with a property. -/
def loadsAlone (content : Bytes) (P : Module → Bool) : Bool :=
  match sourceOf content none with
  | .error _ => false
  | .ok main => main.imports.isEmpty &&
    match Environment.module ⟨main, []⟩ with
    | .error _ => false
    | .ok m => P m

theorem exists_of_loadsAlone {content : Bytes} {P : Module → Bool}
    (h : loadsAlone content P = true) (tree : FileTree) :
    ∃ m, load ⟨[], []⟩ tree (.document content none) = (.ok m, ⟨[], []⟩) ∧ P m = true := by
  unfold loadsAlone at h
  split at h
  · cases h
  · rename_i main hmain
    obtain ⟨himports, h⟩ := Bool.and_eq_true_iff.mp h
    split at h
    · cases h
    · rename_i m hm
      have hheader : (Origin.document content none).header tree = .ok main := hmain
      refine ⟨m, ?_, h⟩
      rw [load_of_header hheader, loadSource_of_no_imports (List.isEmpty_iff.mp himports), hm]

/-- Whether a document without imports is not loaded, for a fault with a property. -/
def failsAlone (content : Bytes) (P : LoadFault → Bool) : Bool :=
  match sourceOf content none with
  | .error _ => false
  | .ok main => main.imports.isEmpty &&
    match Environment.module ⟨main, []⟩ with
    | .error fault => P fault
    | .ok _ => false

theorem exists_of_failsAlone {content : Bytes} {P : LoadFault → Bool}
    (h : failsAlone content P = true) (tree : FileTree) :
    ∃ fault, load ⟨[], []⟩ tree (.document content none) = (.error fault, ⟨[], []⟩) ∧
      P fault = true := by
  unfold failsAlone at h
  split at h
  · cases h
  · rename_i main hmain
    obtain ⟨himports, h⟩ := Bool.and_eq_true_iff.mp h
    split at h
    · rename_i fault hfault
      have hheader : (Origin.document content none).header tree = .ok main := hmain
      refine ⟨fault, ?_, h⟩
      rw [load_of_header hheader, loadSource_of_no_imports (List.isEmpty_iff.mp himports), hfault]
    · cases h

/-- A module whose one refinement makes a leaf mandatory. -/
def leafRefined : Bytes :=
  ("<module name=\"a\"><namespace uri=\"u\"/><prefix value=\"a\"/>" ++
    "<grouping name=\"g\"><leaf name=\"c\"><type name=\"string\"/></leaf></grouping>" ++
    "<uses name=\"g\"><refine target-node=\"c\"><mandatory value=\"true\"/></refine></uses>" ++
    "</module>").toUTF8.toList

theorem loaded_documented_iff_leafRefined :
    ∃ m main, load ⟨[], []⟩ ⟨.empty, ⟨"/"⟩⟩ (.document leafRefined none) = (.ok m, ⟨[], []⟩) ∧
      sourceOf leafRefined none = .ok main ∧ m.Documented ∧ RefinementsFit ⟨main, []⟩ := by
  have hchecked : loadsAlone leafRefined (fun m => m.trees.all fun n =>
      (inventory false n).all fun t => decide t.Proper) = true := by decide +kernel
  obtain ⟨m, hload, hproper⟩ := exists_of_loadsAlone hchecked ⟨.empty, ⟨"/"⟩⟩
  obtain ⟨main, hmain, hiff, -⟩ := loaded_documented_iff hload
  obtain ⟨_, _, hmodule⟩ := module_of_load hload
  have hdocumented : m.Documented := by
    refine (Module.documented_iff (everywhere_complete_of_module hmodule)).mpr ?_
    simpa [Everywhere] using hproper
  exact ⟨m, main, hload, hmain, hdocumented, hiff.mp hdocumented⟩

/-- A module whose one refinement makes a container mandatory. -/
def containerRefined : Bytes :=
  ("<module name=\"a\"><namespace uri=\"u\"/><prefix value=\"a\"/>" ++
    "<grouping name=\"g\"><container name=\"c\"/></grouping>" ++
    "<uses name=\"g\"><refine target-node=\"c\"><mandatory value=\"true\"/></refine></uses>" ++
    "</module>").toUTF8.toList

theorem refined_container_mandatory :
    ∃ m n, load ⟨[], []⟩ ⟨.empty, ⟨"/"⟩⟩ (.document containerRefined none) =
        (.ok m, ⟨[], []⟩) ∧
      m.HasNode n ∧ n.data.kind = .container ∧ n.data.mandatory = some true ∧
      ¬ m.Documented := by
  have hchecked : loadsAlone containerRefined (fun m => m.children.any fun n =>
      n.data.kind == .container && n.data.mandatory == some true) = true := by decide +kernel
  obtain ⟨m, hload, hany⟩ := exists_of_loadsAlone hchecked ⟨.empty, ⟨"/"⟩⟩
  simp only [List.any_eq_true, Bool.and_eq_true, beq_iff_eq] at hany
  obtain ⟨n, hn, hkind, hmandatory⟩ := hany
  have hhas : m.HasNode n := .data (.of_mem hn)
  refine ⟨m, n, hload, hhas, hkind, hmandatory, fun hdocumented => ?_⟩
  have haware := (hdocumented.mandatory n hhas).mp (by rw [hmandatory]; rfl)
  rw [hkind] at haware
  simp at haware

end Loader

end Loading

end YangEvolution
