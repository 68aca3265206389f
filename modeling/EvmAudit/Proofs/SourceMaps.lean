import EvmAudit.Proofs.Immediate
import EvmAudit.Source

/-!
# Source maps

An entry of a source map may leave out what is as in the entry before. Reading carries on what was said last, so whatever
a compiler chooses to leave out, the places are those that it meant.
-/

namespace EvmAudit

open List

lemma Chars.splitBy_eq (cut : Char → Bool) (cs : List Char) : splitBy cut cs = cs.splitOnP cut := by
  induction cs with
  | nil => rfl
  | cons c cs ih =>
    rw [splitBy, splitOnP_cons_eq_if_modifyHead, ih]
    split
    · rfl
    · cases h : cs.splitOnP cut with
      | nil => exact absurd h (splitOnP_ne_nil _ _)
      | cons => rfl

lemma Text.splitAt_intercalate {c : Char} {sep : String} (hsep : sep.toList = [c]) {parts : List String}
    (h : ∀ p ∈ parts, c ∉ p.toList) (hne : parts ≠ []) : splitAt (sep.intercalate parts) c = parts := by
  have hcut : ([c].intercalate (parts.map String.toList)).splitOn c = parts.map String.toList :=
    splitOn_intercalate c (by simpa using h) (by simpa using hne)
  rw [splitAt, Chars.splitBy_eq, String.toList_intercalate, hsep]
  exact (congrArg _ hcut).trans (by simp [Function.comp_def])

lemma Numeral.parse?_toString (n : Int) : parse? 10 (toString n) = some n := by
  have hbase : 2 < 10 ∧ 10 ≤ 16 := by decide
  obtain ⟨ns, hns, hlt, hne, hn⟩ := Hex.toDigits_spell (b := 10) (by decide) n.natAbs
  cases n with
  | ofNat m =>
    rw [parse?_map_digit hbase hlt hne (by simpa [Int.repr, Nat.repr] using hns), hn]
    rfl
  | negSucc m =>
    have htext : (toString (Int.negSucc m)).toList = '-' :: ns.map Hex.digit := by
      simpa [Int.repr, Nat.repr] using hns
    rw [parse?, htext, trim_eq_self (forall_mem_cons.2 ⟨rfl, fun c hc => (plain_of_mem hbase hlt c hc).1⟩)]
    simp only [magnitude_map_digit hbase hlt hne, hn]
    rfl

namespace Place

/-- A stretch of one of the files, or of none of them if the number of its file is -1. -/
structure Stretch (files : SourceFiles) where
  offset : Int
  length : Int
  file : Int
  listed : file = -1 ∨ (files.lookup file).isSome

def Stretch.numbers {files : SourceFiles} (s : Stretch files) : Int × Int × Int := (s.offset, s.length, s.file)

def numbers (p : Place) : Int × Int × Int := (p.offset, p.length, p.file)

/-- A number is written in digits. If it is the one before, its place may be empty or missing. -/
def Spells (before : Option Int) (n : Int) (text : Option String) : Prop :=
  text = some (toString n) ∨ text.getD "" = "" ∧ before = some n

variable {files : SourceFiles}

/-- An entry gives the numbers of a stretch with colons between them. More may follow. -/
def Writes (before : Option (Stretch files)) (s : Stretch files) (item : String) : Prop :=
  ∃ fields : List String, fields ≠ [] ∧ (∀ f ∈ fields, ':' ∉ f.toList) ∧ item = ":".intercalate fields ∧
    Spells (before.map (·.offset)) s.offset fields[0]? ∧ Spells (before.map (·.length)) s.length fields[1]? ∧
    Spells (before.map (·.file)) s.file fields[2]?

/-- Entries for stretches that follow another one, or none. An entry may be empty if its stretch is the one before. -/
inductive Compressed : Option (Stretch files) → List (Stretch files) → List String → Prop
  | nil {b} : Compressed b [] []
  | again {s ss items} (h : Compressed (some s) ss items) : Compressed (some s) (s :: ss) ("" :: items)
  | cons {b s item ss items} (hitem : item ≠ "") (hs : Writes b s item) (h : Compressed (some s) ss items) :
    Compressed b (s :: ss) (item :: items)

variable {before : Option (Stretch files)} {s : Stretch files} {ss : List (Stretch files)} {item : String}
  {items : List String}

section

variable {before : Option Int} {n : Int} {text : Option String} (h : Spells before n text)
include h

lemma Spells.field_eq : field before text = .ok (some n) := by
  obtain rfl | ⟨htext, rfl⟩ := h
  · have hparse := Numeral.parse?_toString n
    have hne : toString n ≠ "" := by
      intro h
      rw [h] at hparse
      cases hparse
    have hgiven : (some (toString n)).filter (!·.isEmpty) = some (toString n) := by simpa using hne
    simp only [field, hgiven, hparse]
  · cases text with
    | none => rfl
    | some t =>
      obtain rfl : t = "" := htext
      rfl

lemma Spells.again : Spells (some n) n text := h.imp_right fun h => ⟨h.1, rfl⟩

end

def known (s : Option (Stretch files)) (written : String) : Known :=
  ⟨s.map (·.offset), s.map (·.length), s.map (·.file), written⟩

lemma Writes.next_eq (h : Writes before s item) (hitem : item ≠ "") (text : String) :
    next (known before text) item = .ok (known (some s) item) := by
  obtain ⟨fields, hne, hplain, htext, hoffset, hlength, hfile⟩ := h
  have hfields : Text.splitAt item ':' = fields := htext ▸ Text.splitAt_intercalate rfl hplain hne
  simp only [next, known, String.isEmpty_iff, hitem, if_false, hfields, hoffset.field_eq, hlength.field_eq, hfile.field_eq]
  rfl

/-- The entry can be read once more, to no effect. -/
lemma Writes.next_again (h : Writes before s item) (hitem : item ≠ "") :
    next (known (some s) item) "" = .ok (known (some s) item) := by
  have hsame : Writes (some s) s item := by
    obtain ⟨fields, hne, hplain, htext, hoffset, hlength, hfile⟩ := h
    exact ⟨fields, hne, hplain, htext, hoffset.again, hlength.again, hfile.again⟩
  rw [← hsame.next_eq hitem item]
  simp [next, known, hitem]

lemma readAll_cons {k : Known} {text : String} (hnext : next k item = .ok (known (some s) text))
    (h : ∃ places, readAll files (known (some s) text) items = .ok places ∧ places.map numbers = ss.map (·.numbers)) :
    ∃ places, readAll files k (item :: items) = .ok places ∧ places.map numbers = (s :: ss).map (·.numbers) := by
  obtain ⟨places, hplaces, hall⟩ := h
  have hplace : ∃ p, ofKnown files (known (some s) text) = .ok p ∧ p.numbers = s.numbers := by
    simp only [ofKnown, known, Option.map_some]
    split
    · exact ⟨_, rfl, rfl⟩
    · rename_i hfile
      obtain ⟨f, hf⟩ := Option.isSome_iff_exists.1 (s.listed.resolve_left (by simpa using hfile))
      simp only [file!, hf]
      exact ⟨_, rfl, rfl⟩
  obtain ⟨p, hp, hnumbers⟩ := hplace
  refine ⟨p :: places, ?_, by rw [map_cons, map_cons, hnumbers, hall]⟩
  simp only [readAll, hnext, bind, Except.bind, hp, hplaces]
  rfl

lemma Compressed.readAll {text : String} (h : Compressed before ss items)
    (hagain : before.isSome → next (known before text) "" = .ok (known before text)) :
    ∃ places, readAll files (known before text) items = .ok places ∧ places.map numbers = ss.map (·.numbers) := by
  induction h generalizing text with
  | nil => exact ⟨[], rfl, rfl⟩
  | again _ ih => exact readAll_cons (hagain rfl) (ih hagain)
  | cons hitem hs _ ih => exact readAll_cons (hs.next_eq hitem text) (ih fun _ => hs.next_again hitem)

/-- Whatever a compiler leaves out of the entries for a list of stretches, reading them gives one place for each stretch,
in order and with its offset, length and file. -/
theorem compressed_maps_are_read (h : Compressed none ss items) :
    ∃ places, readAll files {} items = .ok places ∧ places.map numbers = ss.map (·.numbers) :=
  h.readAll nofun

/-- The second of these entries gives only an offset, the third nothing at all, and the last one only that there is no
file. -/
theorem short_entries_are_read : ∃ places, readAll [(0, ⟨"a.sol", "", []⟩)] {} ["0:10:0:-", "5", "", "::-1"] = .ok places ∧
    places.map numbers = [(0, 10, 0), (5, 10, 0), (5, 10, 0), (5, 10, -1)] := by
  let s (offset : Int) : Stretch [(0, ⟨"a.sol", "", []⟩)] := ⟨offset, 10, 0, .inr rfl⟩
  have hfirst : Writes none (s 0) "0:10:0:-" :=
    ⟨["0", "10", "0", "-"], by decide, by decide, rfl, .inl rfl, .inl rfl, .inl rfl⟩
  have hsecond : Writes (some (s 0)) (s 5) "5" :=
    ⟨["5"], by decide, by decide, rfl, .inl rfl, .inr ⟨rfl, rfl⟩, .inr ⟨rfl, rfl⟩⟩
  have hlast : Writes (some (s 5)) ⟨5, 10, -1, .inl rfl⟩ "::-1" :=
    ⟨["", "", "-1"], by decide, by decide, rfl, .inr ⟨rfl, rfl⟩, .inr ⟨rfl, rfl⟩, .inl rfl⟩
  exact compressed_maps_are_read
    (.cons (by decide) hfirst (.cons (by decide) hsecond (.again (.cons (by decide) hlast .nil))))

end Place
end EvmAudit
