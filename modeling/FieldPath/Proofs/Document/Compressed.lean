import FieldPath.Document
import FieldPath.Proofs.Document.Names
import Mathlib.Tactic.SplitIfs

/-!
# Compressed documents

A document is loaded in the same way whether it is compressed or not. On standard input
nothing but its first bytes tells a compressed document, and no text begins with those,
as the second of them can only continue a character.
-/

namespace FieldPath

/-! ## The first bytes of texts -/

/-- The byte that begins a character has no high bit set, or the two highest. -/
theorem utf8EncodeChar_cases (c : Char) :
    ∃ b rest, String.utf8EncodeChar c = b :: rest ∧
      (b.toNat < 0x80 ∧ rest = [] ∨ 0xc0 ≤ b.toNat) := by
  have hvalue {n : Nat} (hn : n < 256) : (UInt8.ofNat n).toNat = n := by
    rw [UInt8.toNat_ofNat', Nat.mod_eq_of_lt hn]
  unfold String.utf8EncodeChar
  dsimp only
  split_ifs with hone htwo hthree
  · refine ⟨_, _, rfl, .inl ⟨?_, rfl⟩⟩
    rw [hvalue (by omega)]
    omega
  all_goals
    refine ⟨_, _, rfl, .inr ?_⟩
    rw [hvalue (by omega)]
    omega

theorem textOfBytes?_toUTF8 (text : String) :
    textOfBytes? text.toUTF8.data.toList = some text := by
  rw [textOfBytes?, Array.toArray_toList]
  exact dif_pos text.isValidUTF8

theorem exists_chars_of_textOfBytes? {bytes : Bytes} {text : String}
    (h : textOfBytes? bytes = some text) :
    ∃ cs : List Char, bytes = cs.flatMap String.utf8EncodeChar := by
  unfold textOfBytes? String.fromUTF8? at h
  split at h
  · rename_i hvalid
    obtain ⟨cs, hcs⟩ := hvalid
    refine ⟨cs, ?_⟩
    have hbytes := congrArg (fun encoded => encoded.data.toList) hcs
    rwa [List.utf8Encode, List.toList_data_toByteArray] at hbytes
  · cases h

theorem Gzip.isGzip_iff {bytes : Bytes} :
    isGzip bytes = true ↔ ∃ rest, bytes = 0x1f :: 0x8b :: rest := by
  rw [isGzip, List.isPrefixOf_iff_prefix]
  constructor
  · rintro ⟨rest, rfl⟩
    exact ⟨rest, rfl⟩
  · rintro ⟨rest, rfl⟩
    exact ⟨rest, rfl⟩

/-- No text is taken for a compressed document. -/
theorem isGzip_eq_false_of_text {bytes : Bytes} {text : String}
    (h : textOfBytes? bytes = some text) : Gzip.isGzip bytes = false := by
  obtain ⟨cs, rfl⟩ := exists_chars_of_textOfBytes? h
  rw [← Bool.not_eq_true, Gzip.isGzip_iff]
  rintro ⟨rest, hrest⟩
  cases cs with
  | nil => cases hrest
  | cons c cs =>
      obtain ⟨b, more, hb, hfirst⟩ := utf8EncodeChar_cases c
      rw [List.flatMap_cons, hb] at hrest
      obtain ⟨rfl, htail⟩ := List.cons.inj hrest
      rcases hfirst with ⟨-, rfl⟩ | hlead
      · cases cs with
        | nil => cases htail
        | cons d ds =>
            obtain ⟨b', more', hb', hsecond⟩ := utf8EncodeChar_cases d
            rw [List.flatMap_cons, hb'] at htail
            obtain ⟨rfl, -⟩ := List.cons.inj htail
            rcases hsecond with ⟨hlow, -⟩ | hlead
            · exact absurd hlow (by decide)
            · exact absurd hlead (by decide)
      · exact absurd hlead (by decide)

/-! ## Compressed files -/

theorem Gzip.isGzip_of_decompress {bytes content : Bytes} (h : decompress bytes = some content) :
    isGzip bytes = true := by
  obtain ⟨rest, hheader, -⟩ := Option.bind_eq_some_iff.mp h
  obtain ⟨⟨fixed, after⟩, hfixed, hheader⟩ := Option.bind_eq_some_iff.mp hheader
  have hbegins : bytes = fixed ++ after := by
    unfold takeBytes at hfixed
    split at hfixed
    · cases hfixed
    · have hsplit := Option.some.inj hfixed
      rw [List.splitAt_eq] at hsplit
      obtain ⟨rfl, rfl⟩ := Prod.mk.inj hsplit
      exact (List.take_append_drop 10 bytes).symm
  dsimp only at hheader
  split at hheader
  · exact isGzip_iff.mpr ⟨_, hbegins⟩
  · cases hheader

namespace Document

variable {text : String} {content packed : Bytes}

theorem textOfGzip?_eq (htext : textOfBytes? content = some text)
    (hpacked : Gzip.decompress packed = some content) : textOfGzip? packed = some text := by
  rw [textOfGzip?, hpacked, Option.bind_some, htext]

/-- A text on standard input is taken as it is. -/
theorem textOfInput_of_text (htext : textOfBytes? content = some text) :
    textOfInput content = .ok text := by
  rw [textOfInput, isGzip_eq_false_of_text htext, if_neg Bool.false_ne_true, htext]

theorem ofInput_packed (htext : textOfBytes? content = some text)
    (hpacked : Gzip.decompress packed = some content) (format : Format) :
    ofInput packed format = ofInput content format := by
  have hleft : textOfInput packed = .ok text := by
    rw [textOfInput, if_pos (Gzip.isGzip_of_decompress hpacked), textOfGzip?_eq htext hpacked]
  rw [ofInput, ofInput, hleft, textOfInput_of_text htext]

theorem ofEntry_eq_ok_iff {name : String} {entry : Entry} {format : Format}
    (h : textOfEntry name entry = .ok text) {v : Value} :
    ofEntry name entry format = .ok v ↔ ofText text (format.forFile name) = .ok v := by
  rw [ofEntry, h]
  dsimp only
  cases ofText text (format.forFile name) with
  | ok w =>
      constructor
      · rintro ⟨⟩
        rfl
      · rintro ⟨⟩
        rfl
  | error e => exact ⟨nofun, nofun⟩

theorem ofEntry_packed (htext : textOfBytes? content = some text)
    (hpacked : Gzip.decompress packed = some content) {name : String}
    (hname : FileName.IsUncompressed name) {format : Format} {v : Value} :
    ofEntry (name ++ ".gz") (.file packed) format = .ok v ↔
      ofEntry name (.file content) format = .ok v := by
  have hleft : textOfEntry (name ++ ".gz") (.file packed) = .ok text := by
    rw [textOfEntry, if_pos hname.isGzip_append, textOfGzip?_eq htext hpacked]
  have hright : textOfEntry name (.file content) = .ok text := by
    rw [textOfEntry, hname.isGzip_eq_false, if_neg Bool.false_ne_true, htext]
  rw [ofEntry_eq_ok_iff hleft, ofEntry_eq_ok_iff hright, Format.forFile_append hname]

/-- Compression makes no difference: on standard input to the outcome, whatever it is, and
for files to the document and to the format that the name tells. -/
theorem compression_transparent (htext : textOfBytes? content = some text)
    (hpacked : Gzip.decompress packed = some content) (format : Format) :
    ofInput packed format = ofInput content format ∧
    (∀ bytes other, textOfBytes? bytes = some other → Gzip.isGzip bytes = false) ∧
    ∀ name, FileName.IsUncompressed name →
      format.forFile (name ++ ".gz") = format.forFile name ∧
      ∀ v, ofEntry (name ++ ".gz") (.file packed) format = .ok v ↔
        ofEntry name (.file content) format = .ok v := by
  refine ⟨ofInput_packed htext hpacked format, ?_, ?_⟩
  · exact fun bytes other hother => isGzip_eq_false_of_text hother
  · intro name hname
    exact ⟨Format.forFile_append hname format, fun v => ofEntry_packed htext hpacked hname⟩

/-- A stored block with one digit, and a name that begins with a dot. -/
theorem compression_transparent_stored :
    ∃ content packed : Bytes, content = [0x31] ∧
      packed = [0x1f, 0x8b, 8, 0, 0, 0, 0, 0, 0, 255, 1, 1, 0, 0xfe, 0xff, 0x31,
        0xb7, 0xef, 0xdc, 0x83, 1, 0, 0, 0] ∧
      textOfBytes? content = some "1" ∧ Gzip.decompress packed = some content ∧
      FileName.IsUncompressed "logs/.data.json" ∧
      ofInput packed .auto = ofInput content .auto ∧
      Format.auto.forFile "logs/.data.json.gz" = Format.auto.forFile "logs/.data.json" ∧
      ∀ v, ofEntry "logs/.data.json.gz" (.file packed) .auto = .ok v ↔
        ofEntry "logs/.data.json" (.file content) .auto = .ok v := by
  have htext : textOfBytes? [0x31] = some "1" := by decide +kernel
  have hpacked : Gzip.decompress [0x1f, 0x8b, 8, 0, 0, 0, 0, 0, 0, 255, 1, 1, 0, 0xfe, 0xff, 0x31,
      0xb7, 0xef, 0xdc, 0x83, 1, 0, 0, 0] = some [0x31] := by decide +kernel
  have hname : FileName.IsUncompressed "logs/.data.json" :=
    ⟨".data.json".toList, by decide, by decide, by decide, by decide⟩
  have happend : "logs/.data.json" ++ ".gz" = "logs/.data.json.gz" := by simp
  obtain ⟨hinput, -, hfiles⟩ := compression_transparent htext hpacked .auto
  have hfile := hfiles _ hname
  rw [happend] at hfile
  exact ⟨_, _, rfl, rfl, htext, hpacked, hname, hinput, hfile⟩

end Document

end FieldPath
