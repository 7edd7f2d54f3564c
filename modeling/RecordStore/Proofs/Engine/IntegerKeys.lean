import RecordStore.Proofs.Engine.Follows
import RecordStore.Proofs.FloatOrder
/-!
# Integers as primary keys

A document may hold any integer of 64 bits, signed or unsigned, but integer keys end at 63 bits.
Beyond them an integer is keyed by the nearest double, and doubles are 2048 apart there, so
neighbours have one key (`Key.ofInt_eq_iff`).

Two documents that differ in the integer they are keyed by are kept side by side exactly if their
integers do not merge in this way (`Run.keepsBoth_integers`). If they do, the later document
replaces the earlier one. A put changes what is found for one key only (`Follows.found?_afterPut`),
so all depends on whether the keys differ (`Follows.keepsBoth_iff`).
-/

namespace RecordStore

open Log

/-! ## Rounding -/

namespace Binary64

variable {i : Nat}

theorem roundHalfEven_le (num den : Nat) : roundHalfEven num den ≤ num / den + 1 := by
  unfold roundHalfEven
  dsimp only
  split_ifs <;> omega

theorem exponent_of_top (hlow : 2 ^ 63 ≤ i) (hhigh : i < 2 ^ 64) : exponent i 1 = 63 := by
  have hlog : i.log2 = 63 := (Nat.log2_eq_iff (by omega)).2 ⟨hlow, hhigh⟩
  have hreached : 1 * Nat.pow 2 63 ≤ i := by rwa [Nat.one_mul]
  have hguess : ((63 : Nat) : Int) - (Nat.log2 1 : Nat) = 63 := rfl
  unfold exponent
  rw [hlog, hguess]
  dsimp only
  exact if_pos ((if_pos (show (0 : Int) ≤ 63 by decide)).mpr hreached)

/-- From `2 ^ 63` on, a double has a place of `2 ^ 11`. -/
theorem ofQuotient_of_top (hlow : 2 ^ 63 ≤ i) (hhigh : i < 2 ^ 64) :
    ofQuotient i 1 = some (1085 * 2 ^ 52 + roundHalfEven i 2048) := by
  have hround := roundHalfEven_le i 2048
  have hlast : max ((63 : Int) - 52) (-1074) = 11 := by decide
  have hinfinity : infinity = 2047 * 2 ^ 52 := rfl
  unfold ofQuotient
  rw [if_neg (by omega), exponent_of_top hlow hhigh]
  dsimp only
  rw [hlast, if_pos (show (0 : Int) ≤ 11 by decide)]
  exact if_pos (show 1085 * 2 ^ 52 + roundHalfEven i 2048 < infinity by omega)

end Binary64

namespace Key

open Binary64 Json.Document

/-! ## Keys -/

/-- Whether two integers are beyond 63 bits and have the same nearest multiple of 2048. -/
def Merged (m n : Int) : Prop :=
  2 ^ 63 ≤ m ∧ 2 ^ 63 ≤ n ∧ roundHalfEven m.toNat 2048 = roundHalfEven n.toNat 2048

variable {m n : Int}

theorem isInteger_iff : isInteger m = true ↔ -2 ^ 63 ≤ m ∧ m < 2 ^ 64 := by
  rw [isInteger, Bool.and_eq_true, decide_eq_true_iff, decide_eq_true_iff]
  rfl

theorem isIndexable_iff : isIndexable m = true ↔ -2 ^ 63 ≤ m ∧ m < 2 ^ 63 := by
  rw [isIndexable, Bool.and_eq_true, decide_eq_true_iff, decide_eq_true_iff]
  rfl

theorem ofInt_of_low (hm : isInteger m = true) (hlow : m < 2 ^ 63) : ofInt m = .int m :=
  if_pos (isIndexable_iff.2 ⟨(isInteger_iff.1 hm).1, hlow⟩)

/-- The pattern of the double nearest to an integer beyond 63 bits. -/
def topPattern (m : Int) : UInt64 :=
  pattern false (1085 * 2 ^ 52 + roundHalfEven m.toNat 2048)

theorem ofInt_of_top (hm : isInteger m = true) (htop : 2 ^ 63 ≤ m) : ofInt m = ofBits (topPattern m) := by
  have hhigh : m < 2 ^ 64 := (isInteger_iff.1 hm).2
  have hindexable : ¬ isIndexable m = true := fun h => absurd (isIndexable_iff.1 h).2 (Int.not_lt.2 htop)
  have habs : m.natAbs = m.toNat := by omega
  have hpos : decide (m < 0) = false := decide_eq_false (by omega)
  unfold ofInt topPattern
  rw [if_neg hindexable, hpos, habs, ofQuotient_of_top (by omega) (by omega), Option.getD_some]

theorem topPattern_eq_iff (hm : m < 2 ^ 64) (hn : n < 2 ^ 64) :
    topPattern m = topPattern n ↔ roundHalfEven m.toNat 2048 = roundHalfEven n.toNat 2048 := by
  have hmround := roundHalfEven_le m.toNat 2048
  have hnround := roundHalfEven_le n.toNat 2048
  unfold topPattern pattern
  rw [← UInt64.toNat_inj]
  simp only [Bool.false_eq_true, if_false, UInt64.toNat_ofNat']
  omega

/-- The key of an integer beyond 63 bits is of another kind. -/
theorem ofInt_ne (hm : isInteger m = true) (hn : isInteger n = true) (hlow : m < 2 ^ 63)
    (htop : 2 ^ 63 ≤ n) : ofInt m ≠ ofInt n := by
  rw [ofInt_of_low hm hlow, ofInt_of_top hn htop, ofBits_eq]
  exact nofun

/-- Two integers have one key only if they are the same or merge. -/
theorem ofInt_eq_iff (hm : isInteger m = true) (hn : isInteger n = true) :
    ofInt m = ofInt n ↔ m = n ∨ Merged m n := by
  have hmhigh : m < 2 ^ 64 := (isInteger_iff.1 hm).2
  have hnhigh : n < 2 ^ 64 := (isInteger_iff.1 hn).2
  unfold Merged
  by_cases hmtop : 2 ^ 63 ≤ m <;> by_cases hntop : 2 ^ 63 ≤ n
  · rw [ofInt_of_top hm hmtop, ofInt_of_top hn hntop, ofBits_inj, topPattern_eq_iff hmhigh hnhigh]
    refine ⟨fun h => .inr ⟨hmtop, hntop, h⟩, ?_⟩
    rintro (rfl | ⟨-, -, h⟩)
    · rfl
    · exact h
  · refine iff_of_false (ofInt_ne hn hm (Int.not_le.1 hntop) hmtop).symm ?_
    omega
  · refine iff_of_false (ofInt_ne hm hn (Int.not_le.1 hmtop) hntop) ?_
    omega
  · rw [ofInt_of_low hm (Int.not_le.1 hmtop), ofInt_of_low hn (Int.not_le.1 hntop), Key.int.injEq]
    exact (or_iff_left fun h => hmtop h.1).symm

/-- The primary key of a document that has an integer there. -/
theorem get_field {name : String} {d : Json.Document} (hd : d.member? name = some (.int m)) :
    (Property.field name).get d = ofInt m := by
  show ((d.member? name).bind ofDocument?).getD .null = ofInt m
  rw [hd]
  rfl

end Key

/-! ## Records -/

namespace Engine

variable {R : Type}

/-- The stored record that has the primary key of the given one. -/
def found? (e : Engine R) (threshold : Threshold) (record : R) : Option R :=
  ((e.findRecord record).value threshold).1

/-- The engine once a record has been put in. -/
def afterPut (e : Engine R) (threshold : Threshold) (record : R) : Engine R :=
  ((e.put record).value threshold).2

/-- Whether an engine keeps both of two records that are put in one after the other: the second does
not come upon the first in its place, and each is found from then on. -/
structure KeepsBoth (e : Engine R) (threshold : Threshold) (first second : R) : Prop where
  spared : (e.afterPut threshold first).found? threshold second ≠ some first
  found_first :
    ((e.afterPut threshold first).afterPut threshold second).found? threshold first = some first
  found_second :
    ((e.afterPut threshold first).afterPut threshold second).found? threshold second = some second

end Engine

namespace Session.Follows

variable {R : Type} {pk : Property R} {config : Config} {s : Session R} {l : Ledger R} {first second : R}

theorem found?_eq (h : Follows pk config s l) (threshold : Threshold) (x : R) :
    s.engine.found? threshold x = l.stored[pk.get x]? := by
  have hpk := h.primaryKey
  subst hpk
  exact h.tracks.holds.lookup_eq (s.engine.primaryKey.get x)

/-- A put changes what is found for the key of the record, and for no other key. -/
theorem found?_afterPut (h : Follows pk config s l) (threshold : Threshold) (record x : R) :
    (s.engine.afterPut threshold record).found? threshold x =
      if pk.get x = pk.get record then some record else s.engine.found? threshold x := by
  have hput := h.put record threshold
  have hpk := h.primaryKey
  subst hpk
  have hstored : (l.note s.engine (.put record)).stored =
      l.stored.insert (s.engine.primaryKey.get record) record := Store.insert_erase l.stored _ record
  have hfound := hput.found?_eq threshold x
  rw [hstored, Store.getElem?_insert, ← h.found?_eq threshold x] at hfound
  exact hfound

/-- What is found after two puts. -/
theorem found?_afterPut_afterPut (h : Follows pk config s l) (threshold : Threshold) (first second x : R) :
    ((s.engine.afterPut threshold first).afterPut threshold second).found? threshold x =
      if pk.get x = pk.get second then some second
      else if pk.get x = pk.get first then some first else s.engine.found? threshold x := by
  rw [← h.found?_afterPut threshold first x]
  exact (h.put first threshold).found?_afterPut threshold second x

/-- Two records are both kept exactly if their primary keys differ. -/
theorem keepsBoth_iff (h : Follows pk config s l) (threshold : Threshold) (hne : first ≠ second) :
    s.engine.KeepsBoth threshold first second ↔ pk.get first ≠ pk.get second := by
  refine ⟨fun hkeeps hkey => ?_, fun hkey => ⟨?_, ?_, ?_⟩⟩
  · have hfound := hkeeps.found_first
    rw [h.found?_afterPut_afterPut, if_pos hkey, Option.some.injEq] at hfound
    exact hne hfound.symm
  · -- What is found for the key of the second is stored under it, and the first is stored under its own.
    rw [h.found?_afterPut, if_neg (Ne.symm hkey), h.found?_eq]
    exact fun hfound => hkey (h.tracks.holds.keyed _ _ hfound)
  · rw [h.found?_afterPut_afterPut, if_neg hkey, if_pos rfl]
  · rw [h.found?_afterPut_afterPut, if_pos rfl]

end Session.Follows

namespace Run

open Json.Document

/-- Two documents that differ in the integer they are keyed by are both kept exactly if their
integers do not merge. If they do, the later document is found for both of them. -/
theorem keepsBoth_integers (run : Run Json.Document) {name : String} (hpk : run.primaryKey = .field name)
    {first second : Json.Document} {m n : Int} (hfirst : first.member? name = some (.int m))
    (hsecond : second.member? name = some (.int n)) (hm : isInteger m = true) (hn : isInteger n = true)
    (hne : m ≠ n) (threshold : Threshold) :
    (run.engine.KeepsBoth threshold first second ↔ ¬ Key.Merged m n) ∧
      (Key.Merged m n → ∀ record ∈ [first, second],
        ((run.engine.afterPut threshold first).afterPut threshold second).found? threshold record =
          some second) := by
  have hfollows := run.follows
  rw [hpk] at hfollows
  have hkeys : (Property.field name).get first = (Property.field name).get second ↔ Key.Merged m n := by
    rw [Key.get_field hfirst, Key.get_field hsecond, Key.ofInt_eq_iff hm hn]
    exact or_iff_right hne
  have hdocuments : first ≠ second := by
    rintro rfl
    rw [hfirst, Option.some.injEq, Json.Document.int.injEq] at hsecond
    exact hne hsecond
  refine ⟨(hfollows.keepsBoth_iff threshold hdocuments).trans hkeys.not, fun hmerged record hrecord => ?_⟩
  have hkey : (Property.field name).get record = (Property.field name).get second := by
    rcases List.mem_pair.1 hrecord with rfl | rfl
    · exact hkeys.2 hmerged
    · rfl
  exact (hfollows.found?_afterPut_afterPut threshold first second record).trans (if_pos hkey)

/-- A new engine over documents that are keyed by their member `id`. -/
def documents : Run Json.Document where
  primaryKey := .field "id"
  config := {}
  threshold := none
  operations := []

def numbered (i : Int) : Json.Document :=
  .object [("id", .int i)]

/-- The last integer of 63 bits and the first one beyond. -/
theorem keepsBoth_integers_boundary :
    documents.engine.KeepsBoth none (numbered (2 ^ 63 - 1)) (numbered (2 ^ 63)) :=
  (documents.keepsBoth_integers rfl (m := 2 ^ 63 - 1) (n := 2 ^ 63) rfl rfl (by decide) (by decide)
    (by decide) none).1.2 fun h => absurd h.1 (by decide)

/-- The first two integers beyond 63 bits. -/
theorem not_keepsBoth_integers_top :
    isInteger (2 ^ 63) = true ∧ isInteger (2 ^ 63 + 1) = true ∧ (2 ^ 63 : Int) ≠ 2 ^ 63 + 1 ∧
      ¬ documents.engine.KeepsBoth none (numbered (2 ^ 63)) (numbered (2 ^ 63 + 1)) := by
  refine ⟨by decide, by decide, by decide, fun h => ?_⟩
  have hmerged : Key.Merged (2 ^ 63) (2 ^ 63 + 1) := ⟨by decide, by decide, by decide +kernel⟩
  have hkey : Key.ofInt (2 ^ 63) = Key.ofInt (2 ^ 63 + 1) :=
    (Key.ofInt_eq_iff (by decide) (by decide)).2 (.inr hmerged)
  have hdocuments : numbered (2 ^ 63) ≠ numbered (2 ^ 63 + 1) := by simp [numbered]
  exact (documents.follows.keepsBoth_iff none hdocuments).1 h hkey

end Run

end RecordStore
