import FieldPath.Home.Session
import Mathlib.Data.List.Induction

/-!
# What actions leave in the file

What is in the file after some actions can be told from the actions alone: it is the content that
was put there last. The home was untouched before the first content, so that nothing was in its
way, and was not cleared since.
-/

namespace FieldPath

namespace Home

def afterAll (h : Home) (all : List Action) : Home := all.foldl after h

theorem afterAll_append (h : Home) (first second : List Action) :
    h.afterAll (first ++ second) = (h.afterAll first).afterAll second :=
  List.foldl_append

namespace Action

def content? : Action → Option Bytes
  | .write content => some content
  | .save s => some s.text.toUTF8.data.toList
  | _ => none

def Clears (a : Action) : Prop := a = .remove ∨ a = .block

def IsQuestion (a : Action) : Prop := a = .load ∨ a = .read

end Action

/-- Nothing was put anywhere from the start, or since the home was removed. -/
def IsUntouched (all : List Action) : Prop :=
  ∃ before questions, all = before ++ questions ∧
    (before = [] ∨ ∃ earlier, before = earlier ++ [.remove]) ∧ ∀ a ∈ questions, a.IsQuestion

/-- Some action put the first content into an untouched home, later ones cleared nothing, and of
all that was put from then on this came last. -/
def Leaves (all : List Action) (content : Bytes) : Prop :=
  ∃ before put later, all = before ++ put :: later ∧ IsUntouched before ∧
    (∃ first, put.content? = some first) ∧ (∀ a ∈ later, ¬a.Clears) ∧
    ((put :: later).filterMap Action.content?).getLast? = some content

variable {h : Home} {all : List Action} {a : Action} {content : Bytes}

/-! ## From the actions to the file -/

theorem after_absent (ha : a.content? = some content) : absent.after a = file content := by
  cases a <;> cases ha <;> rfl

/-- A file keeps its place until the home is cleared. -/
theorem after_file (ha : ¬a.Clears) (content : Bytes) :
    (file content).after a = file (a.content?.getD content) := by
  cases a with
  | remove => exact absurd (.inl rfl) ha
  | block => exact absurd (.inr rfl) ha
  | _ => rfl

theorem afterAll_file (hall : ∀ a ∈ all, ¬a.Clears) (content : Bytes) :
    (file content).afterAll all =
      file ((all.filterMap Action.content?).getLast?.getD content) := by
  induction all generalizing content with
  | nil => rfl
  | cons a rest ih =>
      obtain ⟨ha, hrest⟩ := List.forall_mem_cons.mp hall
      rw [afterAll, List.foldl_cons, after_file ha]
      refine (ih hrest _).trans ?_
      cases hput : a.content? with
      | none => rw [List.filterMap_cons_none hput, Option.getD_none]
      | some first =>
          rw [List.filterMap_cons_some hput, List.getLast?_cons, Option.getD_some,
            Option.getD_some]

theorem afterAll_of_isQuestion (hall : ∀ a ∈ all, a.IsQuestion) : h.afterAll all = h := by
  induction all with
  | nil => rfl
  | cons a rest ih =>
      obtain ⟨ha, hrest⟩ := List.forall_mem_cons.mp hall
      have hafter : h.after a = h := by rcases ha with rfl | rfl <;> rfl
      rw [afterAll, List.foldl_cons, hafter]
      exact ih hrest

theorem afterAll_of_isUntouched (hall : IsUntouched all) : absent.afterAll all = absent := by
  obtain ⟨before, questions, rfl, hbefore, hquestions⟩ := hall
  rw [afterAll_append, afterAll_of_isQuestion hquestions]
  rcases hbefore with rfl | ⟨earlier, rfl⟩
  · rfl
  · rw [afterAll_append]
    rfl

theorem afterAll_of_leaves (hall : Leaves all content) : absent.afterAll all = file content := by
  obtain ⟨before, put, later, rfl, hbefore, ⟨first, hput⟩, hlater, hlast⟩ := hall
  rw [afterAll_append, afterAll_of_isUntouched hbefore, afterAll, List.foldl_cons,
    after_absent hput]
  refine (afterAll_file hlater first).trans ?_
  rw [List.filterMap_cons_some hput, List.getLast?_cons] at hlast
  exact congrArg file (Option.some.inj hlast)

/-! ## From the file to the actions -/

theorem IsUntouched.append (hall : IsUntouched all) (ha : a.IsQuestion) :
    IsUntouched (all ++ [a]) := by
  obtain ⟨before, questions, rfl, hbefore, hquestions⟩ := hall
  refine ⟨before, questions ++ [a], List.append_assoc _ _ _, hbefore, ?_⟩
  exact List.forall_mem_append.mpr ⟨hquestions, List.forall_mem_singleton.mpr ha⟩

theorem Leaves.append (hall : Leaves all content) (ha : ¬a.Clears) :
    Leaves (all ++ [a]) (a.content?.getD content) := by
  obtain ⟨before, put, later, rfl, hbefore, hput, hlater, hlast⟩ := hall
  refine ⟨before, put, later ++ [a], by simp, hbefore, hput, ?_, ?_⟩
  · exact List.forall_mem_append.mpr ⟨hlater, List.forall_mem_singleton.mpr ha⟩
  · rw [← List.cons_append, List.filterMap_append, List.getLast?_append, hlast]
    cases hcontent : a.content? <;> simp [hcontent]

/-- The home that actions lead to. Where a directory or a plain file is in the way, nothing is
left of what was put. -/
inductive LeadTo (all : List Action) : Home → Prop where
  | absent (untouched : IsUntouched all) : LeadTo all .absent
  | file {content : Bytes} (left : Leaves all content) : LeadTo all (.file content)
  | directory : LeadTo all .directory
  | barred : LeadTo all .barred

theorem LeadTo.after (hall : LeadTo all h) (a : Action) : LeadTo (all ++ [a]) (h.after a) := by
  have hremove : LeadTo (all ++ [.remove]) .absent :=
    .absent ⟨all ++ [.remove], [], (List.append_nil _).symm, .inr ⟨all, rfl⟩, nofun⟩
  cases hall with
  | absent untouched =>
      have hput {put : Action} {content : Bytes} (hput : put.content? = some content) :
          LeadTo (all ++ [put]) (.file content) :=
        .file ⟨all, put, [], rfl, untouched, ⟨_, hput⟩, nofun, by simp [hput]⟩
      cases a with
      | write content => exact hput rfl
      | save s => exact hput rfl
      | remove => exact hremove
      | makeDirectory => exact .directory
      | block => exact .barred
      | load => exact .absent (untouched.append (.inl rfl))
      | read => exact .absent (untouched.append (.inr rfl))
  | @file content left =>
      by_cases ha : a.Clears
      · rcases ha with rfl | rfl
        · exact hremove
        · exact .barred
      · rw [after_file ha]
        exact .file (left.append ha)
  | directory =>
      cases a with
      | remove => exact hremove
      | block => exact .barred
      | _ => exact .directory
  | barred =>
      cases a with
      | remove => exact hremove
      | _ => exact .barred

theorem leadTo_afterAll (all : List Action) : LeadTo all (absent.afterAll all) := by
  induction all using List.reverseRecOn with
  | nil => exact .absent ⟨[], [], rfl, .inl rfl, nofun⟩
  | append_singleton all a ih =>
      rw [afterAll_append]
      exact ih.after a

/-- The file has exactly the content that the actions leave. -/
theorem afterAll_eq_file_iff : absent.afterAll all = file content ↔ Leaves all content := by
  refine ⟨fun hfile => ?_, afterAll_of_leaves⟩
  have hlead := leadTo_afterAll all
  rw [hfile] at hlead
  cases hlead with
  | file left => exact left

end Home

end FieldPath
