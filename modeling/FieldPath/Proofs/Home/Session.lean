import FieldPath.Proofs.Home.Content
import FieldPath.Proofs.Home.Settings

/-!
# What a session remembers

Loading and reading leave no trace in a session, and saving leaves none where it is refused.
Settings that were saved are therefore what every load finds, and their text what is read, until
something else changes the home; and a load never finds a part of what is in the file.
-/

namespace FieldPath

namespace Home

variable {h : Home} {e : Exchange}

abbrev actions (es : List Exchange) : List Action := es.map (·.action)

/-! ## Quiet exchanges -/

/-- Exchanges that ask for what is in the home, and saves that were refused. -/
inductive Exchange.IsQuiet : Exchange → Prop where
  | load (answer : Answer) : IsQuiet ⟨.load, answer⟩
  | read (answer : Answer) : IsQuiet ⟨.read, answer⟩
  | refused (s : Settings) : IsQuiet ⟨.save s, .refused⟩

theorem answer_save_eq_done_iff {s : Settings} :
    h.answer (.save s) = .done ↔ h.save? s = some (h.after (.save s)) := by
  cases hsave : h.save? s <;> simp [answer, after, hsave]

theorem answer_save_eq_refused_iff {s : Settings} :
    h.answer (.save s) = .refused ↔ h.save? s = none := by
  cases hsave : h.save? s <;> simp [answer, hsave]

/-- A quiet exchange leaves the home as it is. -/
theorem after_of_isQuiet (he : e.IsQuiet) (hanswer : e.answer = h.answer e.action) :
    h.after e.action = h := by
  cases he with
  | load answer => rfl
  | read answer => rfl
  | refused s =>
      have hsave := answer_save_eq_refused_iff.mp hanswer.symm
      rw [after, hsave, Option.getD_none, prepared_of_save?_eq_none hsave]

/-! ## Parts of sessions -/

theorem actions_session (h : Home) (all : List Action) : actions (session h all) = all := by
  induction all generalizing h with
  | nil => rfl
  | cons action rest ih => exact congrArg (action :: ·) (ih (h.after action))

theorem session_append (h : Home) (first second : List Action) :
    session h (first ++ second) = session h first ++ session (h.afterAll first) second := by
  induction first generalizing h with
  | nil => rfl
  | cons action rest ih => exact congrArg (_ :: ·) (ih (h.after action))

/-- Each part of a session is a session, the later one in the home that the earlier left. -/
theorem parts_of_session {all : List Action} {first second : List Exchange}
    (hall : session h all = first ++ second) :
    session h (actions first) = first ∧
      session (h.afterAll (actions first)) (actions second) = second := by
  induction first generalizing h all with
  | nil =>
      rw [List.nil_append] at hall
      rw [← hall, actions_session]
      exact ⟨rfl, rfl⟩
  | cons e first ih =>
      cases all with
      | nil => cases hall
      | cons action rest =>
          obtain ⟨rfl, hrest⟩ := List.cons.inj hall
          obtain ⟨hfirst, hsecond⟩ := ih hrest
          exact ⟨congrArg (_ :: ·) hfirst, hsecond⟩

/-- An exchange of a session answers in the home that the earlier ones left, and the later ones
go on from there. -/
theorem exchange_of_session {all : List Action} {earlier later : List Exchange}
    (hall : session h all = earlier ++ e :: later) :
    e.answer = (h.afterAll (actions earlier)).answer e.action ∧
      session ((h.afterAll (actions earlier)).after e.action) (actions later) = later := by
  obtain ⟨-, hrest⟩ := parts_of_session hall
  obtain ⟨hexchange, hlater⟩ := List.cons.inj hrest
  exact ⟨congrArg Exchange.answer hexchange.symm, hlater⟩

/-- Any number of quiet exchanges leaves the home as it is. -/
theorem afterAll_of_isQuiet {es : List Exchange} (hes : session h (actions es) = es)
    (hquiet : ∀ e ∈ es, e.IsQuiet) : h.afterAll (actions es) = h := by
  induction es with
  | nil => rfl
  | cons e es ih =>
      obtain ⟨hexchange, hrest⟩ := List.cons.inj hes
      have hanswer := congrArg Exchange.answer hexchange.symm
      have hafter : h.after e.action = h :=
        after_of_isQuiet (hquiet e List.mem_cons_self) hanswer
      rw [hafter] at hrest
      rw [actions, List.map_cons, afterAll, List.foldl_cons, hafter]
      exact ih hrest fun q hq => hquiet q (List.mem_cons_of_mem _ hq)

/-! ## What is remembered -/

/-- A load gives the settings that are written in the file, whose content is what the actions so
far leave in it, or the default if there is no file or no settings are written in it. -/
theorem load_afterAll (all : List Action) :
    (∃ content, Leaves all content ∧ (absent.afterAll all).load.AreWritten content) ∨
      (∀ content, Leaves all content → ∀ s : Settings, ¬s.AreWritten content) ∧
        (absent.afterAll all).load = .default := by
  rcases load_cases (absent.afterAll all) with ⟨content, hfile, hwritten⟩ | ⟨hnone, hdefault⟩
  · exact .inl ⟨content, afterAll_eq_file_iff.mp hfile, hwritten⟩
  · refine .inr ⟨fun content hleft s hs => ?_, hdefault⟩
    exact hnone s ⟨content, afterAll_eq_file_iff.mpr hleft, hs⟩

/-- Leaving out a quiet exchange makes no difference to any other. A load gives the settings that
are written in the file, and the default if none are. With nothing but quiet exchanges in between,
the settings and the text are those that were saved, and the same question has the same answer. -/
theorem session_keeps_saved {all : List Action} {earlier later : List Exchange}
    (hall : session absent all = earlier ++ e :: later) :
    (e.IsQuiet → session absent (actions (earlier ++ later)) = earlier ++ later) ∧
    (e.action = .load → ∃ s, e.answer = .settings s ∧
      ((∃ content, Leaves (actions earlier) content ∧ s.AreWritten content) ∨
        (∀ content, Leaves (actions earlier) content →
          ∀ other : Settings, ¬other.AreWritten content) ∧ s = .default)) ∧
    ∀ before e' between, earlier = before ++ e' :: between → (∀ q ∈ between, q.IsQuiet) →
      (∀ s, e' = ⟨.save s, .done⟩ →
        (e.action = .load → e.answer = .settings s) ∧
        (e.action = .read → e.answer = .text (some s.text))) ∧
      (e'.IsQuiet → e'.action = e.action → e'.answer = e.answer) := by
  obtain ⟨hanswer, hlater⟩ := exchange_of_session hall
  obtain ⟨hearlier, -⟩ := parts_of_session hall
  refine ⟨fun he => ?_, fun he => ?_, ?_⟩
  · rw [after_of_isQuiet he hanswer] at hlater
    rw [actions, List.map_append, session_append, hearlier, hlater]
  · rw [he] at hanswer
    exact ⟨_, hanswer, load_afterAll _⟩
  · rintro before e' between rfl hquiet
    obtain ⟨hanswer', hbetween⟩ := exchange_of_session hearlier
    have hreached : absent.afterAll (actions (before ++ e' :: between)) =
        (absent.afterAll (actions before)).after e'.action := by
      rw [actions, List.map_append, afterAll_append]
      exact afterAll_of_isQuiet hbetween hquiet
    rw [hreached] at hanswer
    refine ⟨?_, fun he' haction => ?_⟩
    · rintro s rfl
      have hsave := answer_save_eq_done_iff.mp hanswer'.symm
      refine ⟨fun he => ?_, fun he => ?_⟩
      · rw [hanswer, he]
        exact congrArg Answer.settings (load_of_save? hsave)
      · rw [hanswer, he]
        exact congrArg Answer.text (text?_of_save? hsave)
    · rw [hanswer, hanswer', after_of_isQuiet he' hanswer', haction]

/-- Settings are saved where they could not be saved at first. -/
theorem session_keeps_saved_removed :
    ∃ (s : Settings) (earlier : List Exchange) (answer : Answer), s = ⟨.json, true, .yaml⟩ ∧
      earlier = [⟨.block, .done⟩, ⟨.save s, .refused⟩, ⟨.remove, .done⟩, ⟨.save s, .done⟩,
        ⟨.load, .settings s⟩] ∧
      session absent [.block, .save s, .remove, .save s, .load, .read] =
        earlier ++ ⟨.read, answer⟩ :: [] ∧
      session absent (actions (earlier ++ [])) = earlier ++ [] ∧
      answer = .text (some s.text) := by
  have hall : session absent [.block, .save ⟨.json, true, .yaml⟩, .remove,
      .save ⟨.json, true, .yaml⟩, .load, .read] =
        [⟨.block, .done⟩, ⟨.save ⟨.json, true, .yaml⟩, .refused⟩, ⟨.remove, .done⟩,
          ⟨.save ⟨.json, true, .yaml⟩, .done⟩, ⟨.load, .settings ⟨.json, true, .yaml⟩⟩] ++
        ⟨.read, .text (some (Settings.text ⟨.json, true, .yaml⟩))⟩ :: [] := by decide +kernel
  obtain ⟨hquiet, -, hsaved⟩ := session_keeps_saved hall
  have htext := ((hsaved [⟨.block, .done⟩, ⟨.save ⟨.json, true, .yaml⟩, .refused⟩,
    ⟨.remove, .done⟩] ⟨.save ⟨.json, true, .yaml⟩, .done⟩ _ rfl
    (List.forall_mem_singleton.mpr (.load _))).1 _ rfl).2 rfl
  exact ⟨_, _, _, rfl, rfl, hall, hquiet (.read _), htext⟩

end Home

end FieldPath
