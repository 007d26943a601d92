import FieldPath.Proofs.Path.Shape

/-!
# The first segments of a path

A path that has no more segments than are asked for stays as it is. Any other is cut after
the last of them, which then is meant itself. These two cases settle what is left: how deep
it is, which segments and which text it has, that it reads back if the whole path does, and
that cutting again is cutting once.
-/

namespace FieldPath

namespace Path

/-! ## Chains after segments -/

section

variable (before : List Segment) (p : Path)

theorem segments_after : (after before p).segments = before ++ p.segments := by
  induction before with
  | nil => rfl
  | cons s rest ih => exact congrArg (s :: ·) ih

theorem depth_after : (after before p).depth = before.length + p.depth := by
  simp [depth, segments_after]

theorem tail_after : (after before p).tail = p.tail := by
  induction before with
  | nil => rfl
  | cons s rest ih => exact ih

end

theorem depth_pos (p : Path) : 0 < p.depth := by
  cases p <;> simp [depth, segments]

theorem depth_link (s : Segment) (next : Path) : (link s next).depth = next.depth + 1 := rfl

/-- What comes after a segment only adds to the text. -/
theorem exists_textAfter_after (before : List Segment) (s : Segment) (next : Path) :
    ∃ rest, (after before (link s next)).textAfter =
      (after before (element s.name)).textAfter ++ rest := by
  induction before with
  | nil =>
      refine ⟨s.kind.text ++ next.textAfter, ?_⟩
      simp [after, element, textAfter, Segment.text, SegmentKind.text, String.append_assoc]
  | cons first before ih =>
      obtain ⟨rest, hrest⟩ := ih
      refine ⟨rest, ?_⟩
      calc (after (first :: before) (link s next)).textAfter
          = first.text ++ (after before (link s next)).textAfter := rfl
        _ = first.text ++ ((after before (element s.name)).textAfter ++ rest) := by rw [hrest]
        _ = (after (first :: before) (element s.name)).textAfter ++ rest :=
            (String.append_assoc ..).symm

theorem exists_text_after (before : List Segment) (s : Segment) (next : Path) :
    ∃ rest, (after before (link s next)).text = (after before (element s.name)).text ++ rest := by
  cases before with
  | nil =>
      refine ⟨s.kind.text ++ next.textAfter, ?_⟩
      simp [after, element, text, Segment.firstText, SegmentKind.text, String.append_assoc]
  | cons first before =>
      obtain ⟨rest, hrest⟩ := exists_textAfter_after before s next
      refine ⟨rest, ?_⟩
      calc (after (first :: before) (link s next)).text
          = first.firstText ++ (after before (link s next)).textAfter := rfl
        _ = first.firstText ++ ((after before (element s.name)).textAfter ++ rest) := by rw [hrest]
        _ = (after (first :: before) (element s.name)).text ++ rest :=
            (String.append_assoc ..).symm

/-! ## Where a path is cut -/

/-- How the first `n` segments of a path come about: there are no more, or what follows the
last of them is dropped. -/
inductive IsCutTo (n : Nat) : Path → Path → Prop where
  | whole {p : Path} (h : p.depth ≤ n) : IsCutTo n p p
  | cut {before : List Segment} {s : Segment} {next : Path} (h : before.length + 1 = n) :
      IsCutTo n (after before (link s next)) (after before (element s.name))

theorem isCutTo_link {n : Nat} {p q : Path} (s : Segment) (h : IsCutTo n p q) :
    IsCutTo (n + 1) (link s p) (link s q) := by
  cases h with
  | whole h =>
      refine .whole ?_
      rw [depth_link]
      omega
  | @cut before t next h =>
      have hlength : (s :: before).length + 1 = n + 1 := congrArg (· + 1) h
      exact @IsCutTo.cut _ (s :: before) t next hlength

theorem exists_truncate (p : Path) {n : Nat} (hn : 0 < n) :
    ∃ q, p.truncate n = some q ∧ IsCutTo n p q := by
  fun_induction truncate n p with
  | case1 p => cases hn
  | case2 n s => exact ⟨_, rfl, .whole (Nat.le_add_left 1 n)⟩
  | case3 s next => exact ⟨_, rfl, @IsCutTo.cut 1 [] s next rfl⟩
  | case4 n s next ih =>
      obtain ⟨q, hq, hcut⟩ := ih (Nat.succ_pos n)
      exact ⟨link s q, by rw [hq]; rfl, isCutTo_link s hcut⟩

namespace IsCutTo

variable {n : Nat} {p q : Path} (h : IsCutTo n p q)

include h

theorem depth_eq : q.depth = min n p.depth := by
  cases h with
  | whole h => exact (Nat.min_eq_right h).symm
  | @cut before s next h =>
      have hnext := next.depth_pos
      rw [depth_after, depth_after, depth_link]
      change before.length + 1 = _
      omega

theorem names_eq :
    q.segments.map Segment.name = (p.segments.map Segment.name).take q.depth := by
  cases h with
  | whole h => rw [depth, List.take_of_length_le (List.length_map _).le]
  | @cut before s next h =>
      have hsplit : (after before (link s next)).segments.map Segment.name =
          (after before (element s.name)).segments.map Segment.name ++
            next.segments.map Segment.name := by
        simp [segments_after, segments, element]
      rw [hsplit, depth, ← List.length_map Segment.name, List.take_left]

theorem dropLast_segments : q.segments.dropLast = p.segments.take (q.depth - 1) := by
  cases h with
  | whole h => exact List.dropLast_eq_take
  | @cut before s next h =>
      rw [depth_after, segments_after, segments_after]
      simp [element, depth, segments]

theorem eq_of_depth_le (hn : p.depth ≤ n) : q = p := by
  cases h with
  | whole h => rfl
  | @cut before s next h =>
      have hnext := next.depth_pos
      rw [depth_after, depth_link] at hn
      omega

theorem tail_eq_of_lt_depth (hn : n < p.depth) : q.tail.head.kind = .element := by
  cases h with
  | whole h => omega
  | @cut before s next h =>
      rw [tail_after]
      rfl

theorem exists_text_eq : ∃ rest, p.text = q.text ++ rest := by
  cases h with
  | whole h => exact ⟨"", String.append_empty.symm⟩
  | @cut before s next h => exact exists_text_after before s next

end IsCutTo

/-- Cutting what is left of a path is cutting the path once, where less of it stays. -/
theorem truncate_truncate (p : Path) (m n : Nat) :
    (p.truncate m).bind (truncate n) = p.truncate (min m n) := by
  fun_induction truncate m p generalizing n with
  | case1 p => simp [truncate]
  | case2 m s => cases n <;> simp [truncate, Nat.succ_min_succ]
  | case3 s next => cases n <;> simp [truncate]
  | case4 m s next ih =>
      obtain ⟨q, hq, -⟩ := next.exists_truncate (Nat.succ_pos m)
      rcases n with _ | _ | n
      · simp [hq, truncate]
      · simp [hq, truncate]
      · have hnext : q.truncate (n + 1) = next.truncate (min (m + 1) (n + 1)) := by
          rw [← ih (n + 1), hq, Option.bind_some]
        calc ((next.truncate (m + 1)).map (link s)).bind (truncate (n + 2))
            = (q.truncate (n + 1)).map (link s) := by rw [hq]; rfl
          _ = (next.truncate (min m n + 1)).map (link s) := by rw [hnext, Nat.succ_min_succ]
          _ = (link s next).truncate (min (m + 2) (n + 2)) := by
              rw [Nat.succ_min_succ, Nat.succ_min_succ]
              rfl

theorem IsCanonical.of_truncate {p q : Path} {n : Nat} (hp : p.IsCanonical)
    (h : p.truncate n = some q) : q.IsCanonical := by
  cases n with
  | zero => cases h
  | succ n =>
      rcases hp with rfl | hlinked
      · cases h
        exact .inl rfl
      · obtain ⟨name, steps, hname, hw, rfl⟩ := isLinked_iff.mp hlinked
        rw [truncate_succ_ofSteps] at h
        cases h
        have hfirst : ∀ s ∈ steps.take n, s.IsWritten := fun s hs => hw s (List.mem_of_mem_take hs)
        exact .inr (isLinked_iff.mpr ⟨name, _, hname, hfirst, rfl⟩)

structure IsFirstPart (n : Nat) (p q : Path) : Prop where
  depth : q.depth = min n p.depth
  names : q.segments.map Segment.name = (p.segments.map Segment.name).take q.depth
  /-- Before its last segment nothing is changed, so that indices stay. -/
  kept : q.segments.dropLast = p.segments.take (q.depth - 1)
  meant : n < p.depth → q.tail.head.kind = .element
  whole : p.depth ≤ n → q = p
  text : ∃ rest, p.text = q.text ++ rest
  readsBack : (∃ text, parse text = .ok p) → parse q.text = .ok q

/-- Any path can be cut to its first segments, one at least, and what is cut once more is what
could have been cut at once. -/
theorem truncate_first_part (p : Path) {n : Nat} (hn : 0 < n) :
    ∃ q, p.truncate n = some q ∧ IsFirstPart n p q ∧
      ∀ m, (p.truncate m).bind (truncate n) = p.truncate (min m n) := by
  obtain ⟨q, hq, hcut⟩ := p.exists_truncate hn
  refine ⟨q, hq, ⟨hcut.depth_eq, hcut.names_eq, hcut.dropLast_segments, hcut.tail_eq_of_lt_depth,
    hcut.eq_of_depth_le, hcut.exists_text_eq, ?_⟩, fun m => p.truncate_truncate m n⟩
  rintro ⟨text, hparse⟩
  have hp : p.IsCanonical := (parse_eq_ok_iff_text.mp hparse).1
  exact parse_eq_ok_iff_text.mpr ⟨hp.of_truncate hq, rfl⟩

/-- A chain that no text gives: a position first, an element in between, and an array last. -/
theorem truncate_first_part_built :
    ∃ p q, p = arrayAt (some "a") 3 (.link ⟨some "b", .element⟩
        (object none (.last ⟨some "c", .array .wildcard⟩))) ∧
      q = arrayAt (some "a") 3 (.link ⟨some "b", .element⟩ (element none)) ∧ 0 < 3 ∧
      p.truncate 3 = some q ∧ IsFirstPart 3 p q ∧
      ∀ m, (p.truncate m).bind (truncate 3) = p.truncate (min m 3) := by
  have hn : 0 < 3 := by decide
  obtain ⟨q, hq, hfirst, hagain⟩ := truncate_first_part (arrayAt (some "a") 3
    (.link ⟨some "b", .element⟩ (object none (.last ⟨some "c", .array .wildcard⟩)))) hn
  cases hq
  exact ⟨_, _, rfl, rfl, hn, rfl, hfirst, hagain⟩

end Path

end FieldPath
