import FieldPath.FileName
import FieldPath.Format

/-!
# Names of compressed files

A name says that its file is compressed by its last part, and it tells the format by its
very end. The two agree where the ending of compressed files is put after a name that ends
in a part of its own.
-/

namespace FieldPath

def gzipEnding : List Char := ".gz".toList

namespace FileName

/-- What has no slash in it goes to the last part. -/
theorem splitOn_append (cs : List Char) :
    ∃ before last, ∀ ending, '/' ∉ ending →
      (cs ++ ending).splitOn '/' = before ++ [last ++ ending] := by
  induction cs with
  | nil => exact ⟨[], [], fun ending hending => List.splitOn_eq_singleton hending⟩
  | cons c cs ih =>
      obtain ⟨before, last, ih⟩ := ih
      by_cases hc : c = '/'
      · refine ⟨[] :: before, last, fun ending hending => ?_⟩
        simp [List.splitOn_cons_eq_if_modifyHead, hc, ih ending hending]
      · cases before with
        | nil =>
            refine ⟨[], c :: last, fun ending hending => ?_⟩
            simp [List.splitOn_cons_eq_if_modifyHead, hc, ih ending hending]
        | cons first before =>
            refine ⟨(c :: first) :: before, last, fun ending hending => ?_⟩
            simp [List.splitOn_cons_eq_if_modifyHead, hc, ih ending hending]

theorem parts_append (name : String) :
    ∃ before last, ∀ ending : String, '/' ∉ ending.toList →
      parts (name ++ ending) = before ++ [last ++ ending.toList] := by
  obtain ⟨before, last, h⟩ := splitOn_append name.toList
  refine ⟨before, last, fun ending hending => ?_⟩
  rw [parts, String.toList_append, h _ hending]

/-- A last part that means something is the last one that does. -/
theorem lastPart?_of_parts {name : String} {before : List (List Char)} {last : List Char}
    (h : parts name = before ++ [last]) (hne : last ≠ []) (hdot : last ≠ ['.']) :
    lastPart? name = if last = ['.', '.'] then none else some last := by
  have hmeans : (last != [] && last != ['.']) = true := by simp [hne, hdot]
  simp [lastPart?, h, hmeans]

theorem isGzip_iff {name : String} :
    isGzip name = true ↔ ∃ stem, stem ≠ [] ∧ lastPart? name = some (stem ++ gzipEnding) := by
  rw [isGzip, beq_iff_eq]
  constructor
  · intro h
    obtain ⟨part, hpart, h⟩ := Option.bind_eq_some_iff.mp h
    have hsplit := List.takeWhile_append_dropWhile (p := (· != '.')) (l := part.reverse)
    have hhead := List.head?_dropWhile_not (· != '.') part.reverse
    dsimp only at h
    generalize hafter : part.reverse.dropWhile (· != '.') = after at h hsplit hhead
    match after, h with
    | d :: e :: rest, h =>
        have hdot : d = '.' := by simpa using hhead
        have hletters : part.reverse.takeWhile (· != '.') = ['z', 'g'] :=
          List.reverse_eq_iff.mp (Option.some.inj h)
        refine ⟨(e :: rest).reverse, by simp, ?_⟩
        rw [hletters, hdot] at hsplit
        rw [hpart, ← List.reverse_reverse part, ← hsplit]
        simp [gzipEnding]
  · rintro ⟨stem, hstem, hpart⟩
    obtain ⟨c, cs, hcs⟩ := List.exists_cons_of_ne_nil (List.reverse_ne_nil_iff.mpr hstem)
    refine Option.bind_eq_some_iff.mpr ⟨_, hpart, ?_⟩
    simp [gzipEnding, hcs]

/-- The name ends in a part of its own, without the ending of compressed files. -/
def IsUncompressed (name : String) : Prop :=
  ∃ last, (parts name).getLast? = some last ∧ last ≠ [] ∧ last ≠ ['.'] ∧ ¬gzipEnding <:+ last

namespace IsUncompressed

variable {name : String}

/-- The parts of the name, as it is and with the ending put after it. -/
theorem exists_parts (h : IsUncompressed name) :
    ∃ before last, parts name = before ++ [last] ∧
      parts (name ++ ".gz") = before ++ [last ++ gzipEnding] ∧
      last ≠ [] ∧ last ≠ ['.'] ∧ ¬gzipEnding <:+ last := by
  obtain ⟨before, last, happend⟩ := parts_append name
  have hparts : parts name = before ++ [last] := by
    simpa using happend "" (by simp)
  obtain ⟨last', hlast, hne, hdot, hending⟩ := h
  rw [hparts, List.getLast?_concat] at hlast
  cases hlast
  exact ⟨before, last, hparts, happend ".gz" (by decide), hne, hdot, hending⟩

theorem isGzip_eq_false (h : IsUncompressed name) : isGzip name = false := by
  obtain ⟨before, last, hparts, -, hne, hdot, hending⟩ := h.exists_parts
  rw [← Bool.not_eq_true, isGzip_iff]
  rintro ⟨stem, -, hstem⟩
  rw [lastPart?_of_parts hparts hne hdot] at hstem
  split at hstem
  · cases hstem
  · cases hstem
    exact hending (List.suffix_append _ _)

theorem isGzip_append (h : IsUncompressed name) : isGzip (name ++ ".gz") = true := by
  obtain ⟨before, last, -, hparts, hne, -, -⟩ := h.exists_parts
  have hlonger (short : List Char) (hshort : short.length ≤ 2) : last ++ gzipEnding ≠ short := by
    rintro rfl
    rw [List.length_append] at hshort
    have hlength : gzipEnding.length = 3 := rfl
    omega
  refine isGzip_iff.mpr ⟨last, hne, ?_⟩
  rw [lastPart?_of_parts hparts (hlonger _ (by decide)) (hlonger _ (by decide)),
    if_neg (hlonger _ (by decide))]

theorem not_suffix (h : IsUncompressed name) : ¬gzipEnding <:+ name.toList := by
  obtain ⟨before, last, hparts, -, -, -, hending⟩ := h.exists_parts
  rintro ⟨stem, hstem⟩
  obtain ⟨before', last', happend⟩ := splitOn_append stem
  have hsplit := happend gzipEnding (by decide)
  rw [hstem] at hsplit
  have hlast : [last] = [last' ++ gzipEnding] :=
    (List.append_inj' (hparts.symm.trans hsplit) rfl).2
  exact hending ⟨last', (List.cons.inj hlast).1.symm⟩

end IsUncompressed

end FileName

/-- The format is told by what stands before the ending of compressed files. -/
theorem Format.forFile_append {name : String} (h : FileName.IsUncompressed name)
    (format : Format) : format.forFile (name ++ ".gz") = format.forFile name := by
  have hname : uncompressedName name.toList = name.toList :=
    if_neg fun hends => h.not_suffix (List.isSuffixOf_iff_suffix.mp hends)
  have happend : uncompressedName (name ++ ".gz").toList = name.toList := by
    have hends : endsWith ".gz".toList (name.toList ++ ".gz".toList) = true :=
      List.isSuffixOf_iff_suffix.mpr (List.suffix_append _ _)
    rw [String.toList_append, uncompressedName, if_pos hends, List.length_append]
    exact List.take_left
  cases format with
  | auto => rw [forFile, forFile, ofFileName, ofFileName, hname, happend]
  | _ => rfl

end FieldPath
