import FieldPath.Json.Text
import FieldPath.Proofs.Json.Tree
import FieldPath.Proofs.Yaml.Tree

/-!
# Mappings of documents

A mapping of a document is loaded with the texts of its keys, each where it came first and
with the value that came last under it. A document with a container as a key is refused.
-/

namespace FieldPath

namespace Document

/-- What a text is before its keys are texts. Without a format it is YAML if it is not read
as JSON. -/
def HasTree (text : String) : Format → Tree → Prop
  | .json, t => Json.tree? text = some t
  | .yaml, t => Yaml.HasTree text t
  | .auto, t => match Json.read? text with
    | some _ => Json.tree? text = some t
    | none => Yaml.HasTree text t

variable {text : String} {format : Format} {t t' : Tree} {v : Value}

theorem exists_hasTree (h : ofText text format = .ok v) :
    ∃ t, HasTree text format t ∧ t.LoadsAs v := by
  have hyaml {e : Yaml.Error → ContentError} (h : (Yaml.read text).mapError e = .ok v) :
      ∃ t, Yaml.HasTree text t ∧ t.LoadsAs v := by
    cases hread : Yaml.read text with
    | error e =>
        rw [hread] at h
        cases h
    | ok w =>
        rw [hread] at h
        cases h
        exact Yaml.exists_hasTree hread
  unfold ofText at h
  unfold HasTree
  cases format with
  | json =>
      dsimp only at h ⊢
      split at h
      · rename_i w hread
        cases h
        exact Json.exists_tree? hread
      · cases h
  | yaml => exact hyaml h
  | auto =>
      dsimp only at h ⊢
      cases hread : Json.read? text with
      | some w =>
          rw [hread] at h
          cases h
          exact Json.exists_tree? hread
      | none =>
          rw [hread] at h
          exact hyaml h

theorem HasTree.unique (h : HasTree text format t) (h' : HasTree text format t') : t = t' := by
  unfold HasTree at h h'
  cases format with
  | json => exact Option.some.inj (h.symm.trans h')
  | yaml => exact Yaml.Node.Unfolds.unique h h'
  | auto =>
      dsimp only at h h'
      cases hread : Json.read? text with
      | some w =>
          rw [hread] at h h'
          exact Option.some.inj (h.symm.trans h')
      | none =>
          rw [hread] at h h'
          exact Yaml.Node.Unfolds.unique h h'

theorem loadsAs_of_hasTree (ht : HasTree text format t) (h : ofText text format = .ok v) :
    t.LoadsAs v := by
  obtain ⟨t', ht', hloads⟩ := exists_hasTree h
  rwa [ht.unique ht']

/-- Documents that load have a tree, and no other value than what the tree loads as: in each
mapping the texts of the keys in the order in which they came first, under each of them the
value that came last. With a container as a key, at any depth, none is loaded. -/
theorem mappings_merge (text : String) (format : Format) :
    (∀ v, ofText text format = .ok v →
      v.KeysDistinct ∧ ∃ t, HasTree text format t ∧ t.LoadsAs v) ∧
    ∀ t, HasTree text format t →
      (∀ v, ofText text format = .ok v → t.LoadsAs v) ∧
      (t.HasContainerKey → ∃ e, ofText text format = .error e) := by
  refine ⟨fun v h => ⟨keysDistinct_of_ofText h, exists_hasTree h⟩, fun t ht => ?_⟩
  refine ⟨fun v h => loadsAs_of_hasTree ht h, fun hkey => ?_⟩
  cases h : ofText text format with
  | error e => exact ⟨e, rfl⟩
  | ok v => exact absurd (loadsAs_of_hasTree ht h) hkey.not_loadsAs

/-- Keys of several types that are alike as texts; and a sequence as a key inside of a
mapping. -/
theorem mappings_merge_alike :
    (∃ text v t, text = "\x7b1: a, 1.0: b, true: d, \"1\": c, ~: n, \"true\": [e]\x7d" ∧
      ofText text .auto = .ok v ∧ v.text = "\x7b\"1\":\"c\",\"true\":[\"e\"],\"null\":\"n\"\x7d" ∧
      v.KeysDistinct ∧ HasTree text .auto t ∧ t.LoadsAs v) ∧
    ∃ text t, text = "\x7b'x': \x7b['a']: 'b'\x7d\x7d" ∧ HasTree text .yaml t ∧
      t.HasContainerKey ∧ ∃ e, ofText text .yaml = .error e := by
  constructor
  · have hread : (ofText "\x7b1: a, 1.0: b, true: d, \"1\": c, ~: n, \"true\": [e]\x7d"
        .auto).toOption.map Value.text =
          some "\x7b\"1\":\"c\",\"true\":[\"e\"],\"null\":\"n\"\x7d" := by decide +kernel
    cases hload : ofText "\x7b1: a, 1.0: b, true: d, \"1\": c, ~: n, \"true\": [e]\x7d" .auto with
    | error e =>
        rw [hload] at hread
        cases hread
    | ok v =>
        rw [hload] at hread
        obtain ⟨hdistinct, t, ht, -⟩ := (mappings_merge _ _).1 v hload
        exact ⟨_, v, t, rfl, hload, Option.some.inj hread, hdistinct, ht,
          ((mappings_merge _ _).2 t ht).1 v hload⟩
  · have hroot : (Yaml.Composition.document (Yaml.tokens
        "\x7b'x': \x7b['a']: 'b'\x7d\x7d".toList)).1 =
          .mapping none [(.scalar none .quoted ['x'],
            .mapping none [(.sequence none [.scalar none .quoted ['a']],
              .scalar none .quoted ['b'])])] := by cbv
    have htree : HasTree "\x7b'x': \x7b['a']: 'b'\x7d\x7d" .yaml (.mapping
        [(.ofString (String.ofList ['x']),
          .mapping [(.sequence [.ofString (String.ofList ['a'])],
            .ofString (String.ofList ['b']))])]) := by
      rw [HasTree, Yaml.HasTree, hroot]
      refine Yaml.Node.unfolds_mapping none (.cons ⟨.scalar rfl rfl, ?_⟩ .nil)
      refine Yaml.Node.unfolds_mapping none (.cons ⟨?_, .scalar rfl rfl⟩ .nil)
      exact Yaml.Node.unfolds_sequence none (.cons (.scalar rfl rfl) .nil)
    have hkey : (Tree.mapping [(.ofString (String.ofList ['x']),
        .mapping [(.sequence [.ofString (String.ofList ['a'])],
          .ofString (String.ofList ['b']))])]).HasContainerKey :=
      .value List.mem_cons_self (.key List.mem_cons_self rfl)
    exact ⟨_, _, rfl, htree, hkey, ((mappings_merge _ _).2 _ htree).2 hkey⟩

end Document

end FieldPath
