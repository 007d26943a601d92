import FieldPath.Proofs.Document.Loaded
import FieldPath.Proofs.Document.Tree

/-!
# Trees of YAML documents

The nodes of a document unfold into a tree when each alias is replaced by the node that it
stands for. A document that is read has one such tree, and is read as what it loads as.
-/

namespace FieldPath

namespace Yaml

namespace Node

/-- The tree that a node is once its aliases are followed. Tags count for scalars alone. -/
inductive Unfolds (anchors : Anchors) : Node → Tree → Prop where
  | aliased {number : Nat} {n : Node} {t : Tree} (found : anchors.node? number = some n)
      (unfolds : Unfolds anchors n t) : Unfolds anchors (.alias number) t
  | scalar {tag : Option (List Char)} {style : ScalarStyle} {text : List Char} {v : Value}
      (h : scalarValue? tag style text = some v) (isScalar : v.isContainer = false) :
      Unfolds anchors (scalar tag style text) (.scalar v isScalar)
  | sequence {tag : Option (List Char)} {items : List Node} {ts : List Tree}
      (length_eq : items.length = ts.length)
      (elements : ∀ pair ∈ items.zip ts, Unfolds anchors pair.1 pair.2) :
      Unfolds anchors (sequence tag items) (.sequence ts)
  | mapping {tag : Option (List Char)} {entries : List (Node × Node)} {ts : List (Tree × Tree)}
      (length_eq : entries.length = ts.length)
      (keys : ∀ pair ∈ entries.zip ts, Unfolds anchors pair.1.1 pair.2.1)
      (values : ∀ pair ∈ entries.zip ts, Unfolds anchors pair.1.2 pair.2.2) :
      Unfolds anchors (mapping tag entries) (.mapping ts)

theorem eq_of_zip {α β : Type} {as : List α} {bs cs : List β} (hbs : as.length = bs.length)
    (hcs : as.length = cs.length)
    (h : ∀ a b c, (a, b) ∈ as.zip bs → (a, c) ∈ as.zip cs → b = c) : bs = cs := by
  induction as generalizing bs cs with
  | nil =>
      rw [List.length_eq_zero_iff.mp hbs.symm, List.length_eq_zero_iff.mp hcs.symm]
  | cons a as ih =>
      cases bs with
      | nil => cases hbs
      | cons b bs =>
          cases cs with
          | nil => cases hcs
          | cons c cs =>
              rw [h a b c List.mem_cons_self List.mem_cons_self,
                ih (Nat.succ.inj hbs) (Nat.succ.inj hcs) fun a b c hb hc =>
                  h a b c (List.mem_cons_of_mem _ hb) (List.mem_cons_of_mem _ hc)]

/-- A node has no other tree. -/
theorem Unfolds.unique {anchors : Anchors} {n : Node} {t t' : Tree} (h : n.Unfolds anchors t)
    (h' : n.Unfolds anchors t') : t = t' := by
  induction h generalizing t' with
  | aliased found _ ih =>
      cases h' with
      | aliased found' unfolds' =>
          cases found.symm.trans found'
          exact ih unfolds'
  | scalar hv _ =>
      cases h' with
      | scalar hv' _ =>
          cases hv.symm.trans hv'
          rfl
  | sequence length_eq _ ih =>
      cases h' with
      | sequence length_eq' elements' =>
          refine congrArg _ (eq_of_zip length_eq length_eq' fun n t t' ht ht' => ?_)
          exact ih _ ht (elements' _ ht')
  | mapping length_eq _ _ ihKeys ihValues =>
      cases h' with
      | mapping length_eq' keys' values' =>
          refine congrArg _ (eq_of_zip length_eq length_eq' fun n t t' ht ht' => ?_)
          exact Prod.ext (ihKeys _ ht (keys' _ ht')) (ihValues _ ht (values' _ ht'))

end Node

/-! ## What is read has a tree -/

namespace Decoder

variable {α β : Type}

theorem Yields.imp {P Q : α → Prop} {x : Decoder α} (h : x.Yields P) (hPQ : ∀ a, P a → Q a) :
    x.Yields Q := fun left a after hrun => hPQ a (h left a after hrun)

theorem yields_mapM_forall₂ {R : α → β → Prop} {f : α → Decoder β} {as : List α}
    (hf : ∀ a ∈ as, (f a).Yields (R a)) : (as.mapM f).Yields (List.Forall₂ R as) := by
  induction as with
  | nil => exact yields_pure .nil
  | cons a rest ih =>
      obtain ⟨ha, hrest⟩ := List.forall_mem_cons.mp hf
      rw [List.mapM_cons]
      exact yields_bind ha fun b hb => yields_bind (ih hrest) fun bs hbs =>
        yields_pure (.cons hb hbs)

end Decoder

namespace Node

variable {anchors : Anchors}

/-- What an alias is followed to has the tree of the alias. -/
theorem yields_follow (n : Node) :
    (n.follow anchors).Yields fun m => ∀ t, m.Unfolds anchors t → n.Unfolds anchors t := by
  cases n with
  | «alias» number =>
      refine Decoder.yields_bind (Decoder.yields_trivial _) fun left _ => ?_
      refine Decoder.yields_unless (Decoder.yields_bind (Decoder.yields_trivial _) fun _ _ => ?_)
      split
      · rename_i m hm
        exact Decoder.yields_pure fun t ht => .aliased hm ht
      · exact Decoder.yields_throw _
  | _ => exact Decoder.yields_pure fun _ h => h

theorem yields_key (depth : Nat) (n : Node) :
    (n.key anchors depth).Yields fun key => ∃ t, n.Unfolds anchors t ∧ t.HasKeyText key := by
  rw [key]
  refine Decoder.yields_bind (yields_follow n) fun m hm => ?_
  split
  · rename_i tag style text
    split
    · rename_i key hkey
      obtain ⟨v, hv, hkey⟩ := Option.bind_eq_some_iff.mp hkey
      have hscalar := (isScalar_of_scalarValue? hv).isContainer
      exact Decoder.yields_pure ⟨.scalar v hscalar, hm _ (.scalar hv hscalar),
        (Tree.hasKeyText_scalar_iff hscalar).mpr hkey⟩
    · exact Decoder.yields_throw _
  · split <;> exact Decoder.yields_throw _
  · split <;> exact Decoder.yields_throw _
  · exact Decoder.yields_throw _

theorem unfolds_sequence (tag : Option (List Char)) {items : List Node} {ts : List Tree}
    (h : List.Forall₂ (Unfolds anchors) items ts) :
    (sequence tag items).Unfolds anchors (.sequence ts) :=
  .sequence h.length_eq fun _ hpair => List.forall₂_zip h hpair

theorem unfolds_mapping (tag : Option (List Char)) {entries : List (Node × Node)}
    {ts : List (Tree × Tree)}
    (h : List.Forall₂ (fun n t => n.1.Unfolds anchors t.1 ∧ n.2.Unfolds anchors t.2) entries ts) :
    (mapping tag entries).Unfolds anchors (.mapping ts) :=
  .mapping h.length_eq (fun _ hpair => (List.forall₂_zip h hpair).1)
    fun _ hpair => (List.forall₂_zip h hpair).2

theorem exists_forall₂ {α β γ : Type} {R : α → β → Prop} {S : β → γ → Prop} {as : List α}
    {cs : List γ} (h : List.Forall₂ (fun a c => ∃ b, R a b ∧ S b c) as cs) :
    ∃ bs, List.Forall₂ R as bs ∧ List.Forall₂ S bs cs := by
  induction h with
  | nil => exact ⟨[], .nil, .nil⟩
  | cons hac _ ih =>
      obtain ⟨b, hab, hbc⟩ := hac
      obtain ⟨bs, hleft, hright⟩ := ih
      exact ⟨b :: bs, .cons hab hleft, .cons hbc hright⟩

def HasTreeOf (anchors : Anchors) (n : Node) (v : Value) : Prop :=
  ∃ t, n.Unfolds anchors t ∧ t.LoadsAs v

theorem HasTreeOf.of_unfolds {n m : Node} {v : Value} (h : m.HasTreeOf anchors v)
    (hm : ∀ t, m.Unfolds anchors t → n.Unfolds anchors t) : n.HasTreeOf anchors v := by
  obtain ⟨t, ht, hload⟩ := h
  exact ⟨t, hm t ht, hload⟩

theorem yields_scalarOf_hasTreeOf (tag : Option (List Char)) (style : ScalarStyle)
    (text : List Char) :
    (scalarOf tag style text).Yields ((scalar tag style text).HasTreeOf anchors) := by
  unfold scalarOf
  split
  · rename_i v hv
    have hscalar := (isScalar_of_scalarValue? hv).isContainer
    exact Decoder.yields_pure ⟨.scalar v hscalar, .scalar hv hscalar, .scalar hscalar⟩
  · exact Decoder.yields_throw _

theorem hasTreeOf_sequence (tag : Option (List Char)) {items : List Node} {vs : List Value}
    (h : List.Forall₂ (HasTreeOf anchors) items vs) :
    (sequence tag items).HasTreeOf anchors (.sequence vs) := by
  obtain ⟨ts, hunfold, hload⟩ := exists_forall₂ h
  exact ⟨.sequence ts, unfolds_sequence tag hunfold, .sequence hload⟩

def HasEntryTreesOf (anchors : Anchors) (entry : Node × Node) (pair : String × Value) : Prop :=
  ∃ t : Tree × Tree, (entry.1.Unfolds anchors t.1 ∧ entry.2.Unfolds anchors t.2) ∧
    t.1.HasKeyText pair.1 ∧ t.2.LoadsAs pair.2

theorem hasTreeOf_mapping (tag : Option (List Char)) {entries : List (Node × Node)}
    {pairs : List (String × Value)}
    (h : List.Forall₂ (HasEntryTreesOf anchors) entries pairs) :
    (mapping tag entries).HasTreeOf anchors (.ofEntries pairs) := by
  obtain ⟨ts, hunfold, hload⟩ := exists_forall₂ h
  exact ⟨.mapping ts, unfolds_mapping tag hunfold,
    Tree.loadsAs_ofEntries (hload.imp fun _ _ h => h.1) (hload.imp fun _ _ h => h.2)⟩

theorem yields_hasTreeOf (depth : Nat) (n : Node) :
    (n.value anchors depth).Yields (n.HasTreeOf anchors) := by
  induction depth generalizing n with
  | zero =>
      rw [value]
      refine Decoder.yields_bind (yields_follow n) fun m hm => ?_
      refine Decoder.Yields.imp ?_ fun v hv => HasTreeOf.of_unfolds hv hm
      split
      · exact yields_scalarOf_hasTreeOf _ _ _
      · exact Decoder.yields_throw _
  | succ depth ih =>
      rw [value]
      refine Decoder.yields_bind (yields_follow n) fun m hm => ?_
      refine Decoder.Yields.imp ?_ fun v hv => HasTreeOf.of_unfolds hv hm
      split
      · exact yields_scalarOf_hasTreeOf _ _ _
      · rename_i tag items
        refine Decoder.yields_unless (Decoder.yields_bind
          (Decoder.yields_mapM_forall₂ fun item _ => ih item) fun vs hvs => ?_)
        exact Decoder.yields_pure (hasTreeOf_sequence tag hvs)
      · rename_i tag entries
        have hentry (entry : Node × Node) : Decoder.Yields
            (do return (← key anchors depth entry.1, ← value anchors depth entry.2))
            (HasEntryTreesOf anchors entry) := by
          refine Decoder.yields_bind (yields_key depth entry.1) fun key hkey => ?_
          refine Decoder.yields_bind (ih entry.2) fun v hvalue => ?_
          obtain ⟨tk, hk, hkeyText⟩ := hkey
          obtain ⟨tv, hv, hload⟩ := hvalue
          exact Decoder.yields_pure ⟨(tk, tv), ⟨hk, hv⟩, hkeyText, hload⟩
        refine Decoder.yields_unless (Decoder.yields_bind
          (Decoder.yields_mapM_forall₂ fun entry _ => hentry entry) fun pairs hpairs => ?_)
        exact Decoder.yields_pure (hasTreeOf_mapping tag hpairs)
      · exact Decoder.yields_throw _

end Node

/-- The tree of the document that a text begins with. -/
def HasTree (text : String) (t : Tree) : Prop :=
  (Composition.document (tokens text.toList)).1.Unfolds
    (Composition.document (tokens text.toList)).2.anchors t

/-- Every text that is read has a tree, and is read as what the tree loads as. -/
theorem exists_hasTree {text : String} {v : Value} (h : read text = .ok v) :
    ∃ t, HasTree text t ∧ t.LoadsAs v := by
  unfold read at h
  dsimp only at h
  split at h
  · cases h
  · rename_i w after hrun
    split at h
    · cases h
      exact Node.yields_hasTreeOf _ _ _ _ _ hrun
    · cases h

end Yaml

end FieldPath
