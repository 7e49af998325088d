import TraceEngine.Proofs.Text.Blank
import TraceEngine.Proofs.Uri.Percent
import TraceEngine.Uri.Basic

/-!
Paths as reading leaves them: nothing in a segment is encoded once more or cuts it, and no segment is resolved once
more, unless the path begins with a drive.
-/
namespace TraceEngine.Uri

open Text

variable {k : SchemeKind} {path raw : List (List Char)} {s rest : List Char} {c : Char}

def isSlash (k : SchemeKind) (c : Char) : Bool := c = '/' || (k.backslashes && c = '\\')

/-- A segment that encoding leaves as it is. -/
def Written (k : SchemeKind) (s : List Char) : Prop := ∀ c ∈ s, isPathEncoded c = false ∧ isSlash k c = false

/-- The path begins with a drive. -/
def beginsWithDrive (path : List (List Char)) : Bool := path.head?.any isDrive

/-- Paths as reading leaves them. Behind a drive that was parted from it, dots are not resolved. -/
structure CanonicalPath (k : SchemeKind) (path : List (List Char)) : Prop where
  written : ∀ s ∈ path, Written k s
  resolved : (∀ s ∈ path, isDots s = false) ∨ k = .file ∧ beginsWithDrive path = true

theorem isIgnored_of_lt (h : 0x20 < c.toNat) : isIgnored c = false := by
  by_contra hc
  simp only [isIgnored,Bool.not_eq_false,Bool.or_eq_true,decide_eq_true_eq] at hc
  rcases hc with (rfl | rfl) | rfl <;> exact absurd h (by decide)

theorem lt_of_not_isPathEncoded (h : isPathEncoded c = false) : 0x20 < c.toNat := by
  have hspace : c.toNat ≠ 0x20 := fun hc => by
    obtain rfl : c = ' ' := Char.toNat_inj.1 hc
    exact absurd h (by decide)
  simp only [isPathEncoded,isControl,Bool.or_eq_false_iff,decide_eq_false_iff_not] at h
  omega

theorem Written.isIgnored (h : Written k s) : ∀ c ∈ s, isIgnored c = false := fun c hc =>
  isIgnored_of_lt (lt_of_not_isPathEncoded (h c hc).1)

theorem Written.kept (h : Written k s) : kept s = s :=
  kept_of_all_not h.isIgnored

theorem Written.percentEncode (h : Written k s) : percentEncode isPathEncoded s = s :=
  percentEncode_of_all_not fun c hc => (h c hc).1

theorem written_percentEncode (h : ∀ c ∈ s, isSlash k c = false) : Written k (percentEncode isPathEncoded s) := by
  refine forall_mem_percentEncode (fun c hc hkept => ⟨hkept,h c hc⟩) ?_ ?_
  · cases k <;> decide
  · cases k <;> decide

theorem kept_percentEncode (s : List Char) : kept (percentEncode isPathEncoded s) = percentEncode isPathEncoded s := by
  have hencoded : ∀ c ∈ percentEncode isPathEncoded s, isPathEncoded c = false :=
    forall_mem_percentEncode (fun _ _ hkept => hkept) (by decide) (by decide)
  exact kept_of_all_not fun c hc => isIgnored_of_lt (lt_of_not_isPathEncoded (hencoded c hc))

/-- The ways to write one or two points, in lower case. -/
def dotSpellings : List (List Char) := [".","..","%2e",".%2e","%2e.","%2e%2e"].map String.toList

theorem lowered_mem_of_dots (h : isSingleDot s = true ∨ isDoubleDot s = true) : lowered s ∈ dotSpellings := by
  simp only [isSingleDot,isDoubleDot,Bool.or_eq_true,decide_eq_true_eq] at h
  rcases h with (rfl | h) | (((rfl | h) | h) | h)
  · decide
  · simp [h,dotSpellings]
  · decide
  all_goals simp [h,dotSpellings]

theorem escapesPointsOnly_of_lowered_mem (h : lowered s ∈ dotSpellings) : EscapesPointsOnly s := by
  have hall : ∀ spelling ∈ dotSpellings, ∀ t ∈ spelling.tails, t.head? = some '%' → (t.drop 1).take 2 = ['2','e'] := by
    decide
  intro x y rest hsuffix
  exact hall _ h _ ((List.mem_tails _ _).2 (hsuffix.map Char.toLower)) rfl

/-- Encoding makes no dots. -/
theorem isDots_percentEncode (hsingle : isSingleDot s = false) (hdouble : isDoubleDot s = false) :
    isDots (percentEncode isPathEncoded s) = false := by
  by_contra h
  rw [isDots,kept_percentEncode,Bool.not_eq_false,Bool.or_eq_true] at h
  have hself := percentEncode_eq_self (by decide) (escapesPointsOnly_of_lowered_mem (lowered_mem_of_dots h))
  rw [hself,hsingle,hdouble] at h
  simp at h

theorem startsWithDrive_of_isDrive (h : isDrive s = true) : startsWithDrive s = true := by
  unfold isDrive at h
  split at h
  · simpa [startsWithDrive,isDrive] using h
  · contradiction

theorem mem_of_mem_dropSegment (h : s ∈ dropSegment path) : s ∈ path := by
  unfold dropSegment at h
  split at h
  · split at h
    · exact h
    · exact List.mem_of_mem_dropLast h
  · exact h

/-- A drive in the first place is not dropped. -/
theorem beginsWithDrive_dropSegment (h : beginsWithDrive path = true) : beginsWithDrive (dropSegment path) = true := by
  match path with
  | [] => simp [beginsWithDrive] at h
  | [drive] =>
    have hdrive : startsWithDrive drive = true := startsWithDrive_of_isDrive (by simpa [beginsWithDrive] using h)
    simpa [dropSegment,hdrive] using h
  | drive :: s :: rest =>
    unfold dropSegment
    split
    · split
      · exact h
      · simpa [beginsWithDrive] using h
    · exact h

theorem beginsWithDrive_append (h : beginsWithDrive path = true) (more : List (List Char)) :
    beginsWithDrive (path ++ more) = true := by
  cases path with
  | nil => simp [beginsWithDrive] at h
  | cons s rest => simpa [beginsWithDrive] using h

theorem CanonicalPath.dropSegment (h : CanonicalPath k path) : CanonicalPath k (dropSegment path) where
  written s hs := h.written s (mem_of_mem_dropSegment hs)
  resolved := h.resolved.imp (fun hdots s hs => hdots s (mem_of_mem_dropSegment hs))
    fun ⟨hk,hdrive⟩ => ⟨hk,beginsWithDrive_dropSegment hdrive⟩

theorem CanonicalPath.concat (h : CanonicalPath k path) (hs : Written k s) (hdots : isDots s = false) :
    CanonicalPath k (path ++ [s]) where
  written := List.forall_mem_append.2 ⟨h.written,by simpa using hs⟩
  resolved := h.resolved.imp (fun hpath => List.forall_mem_append.2 ⟨hpath,by simpa using hdots⟩)
    fun ⟨hk,hdrive⟩ => ⟨hk,beginsWithDrive_append hdrive _⟩

theorem canonicalPath_nil (k : SchemeKind) : CanonicalPath k [] := ⟨by simp,.inl (by simp)⟩

/-- A segment before it is read. Only in the address of a file there may be characters in it that are passed over. -/
structure RawSegment (k : SchemeKind) (s : List Char) : Prop where
  uncut : ∀ c ∈ s, isSlash k c = false
  kept : k ≠ .file → ∀ c ∈ s, isIgnored c = false

/-- A parted drive and the text after it come from the segment, and so does what parts them. -/
theorem exists_of_partedDrive? {drive rest : List Char} (h : partedDrive? s = some (drive,rest)) :
    ∃ letter after, drive = [letter,':'] ∧ rest = kept after ∧ letter.isAlpha = true ∧ (∀ c ∈ after, c ∈ s) ∧
      ∃ c ∈ after, isIgnored c = true := by
  unfold partedDrive? at h
  split at h
  · rename_i letter rest hletter
    split at h
    · rename_i after hafter
      obtain ⟨hparted,hpair⟩ := Option.ite_none_right_eq_some.1 h
      obtain ⟨rfl,rfl⟩ := Prod.mk.inj (Option.some.inj hpair)
      simp only [Bool.and_eq_true,Option.any_eq_true] at hparted
      obtain ⟨⟨halpha,c,hc,hignored⟩,-⟩ := hparted
      have hrest : ∀ c ∈ rest, c ∈ s := fun c hc =>
        List.dropWhile_subset isIgnored (hletter ▸ List.mem_cons_of_mem _ hc)
      exact ⟨letter,after,rfl,rfl,halpha,fun c hc => hrest c
        (List.dropWhile_subset isIgnored (hafter ▸ List.mem_cons_of_mem _ hc)),c,List.mem_of_mem_head? hc,hignored⟩
    · contradiction
  · contradiction

theorem partedDrive?_eq_none (h : ∀ c ∈ s, isIgnored c = false) : partedDrive? s = none := by
  refine Option.eq_none_iff_forall_ne_some.2 fun ⟨drive,rest⟩ hparted => ?_
  obtain ⟨_,after,-,-,-,hafter,c,hc,hignored⟩ := exists_of_partedDrive? hparted
  simp [h c (hafter c hc)] at hignored

theorem toNat_lt_of_isAlpha (h : c.isAlpha = true) : c.toNat < 128 := by
  obtain hupper | hlower : c.isUpper = true ∨ c.isLower = true := Bool.or_eq_true_iff.1 h
  · exact (UInt32.le_iff_toNat_le.1 (of_decide_eq_true hupper).2).trans_lt (by decide)
  · exact (UInt32.le_iff_toNat_le.1 (of_decide_eq_true (Bool.and_eq_true_iff.1 hlower).2)).trans_lt (by decide)

theorem written_of_isAlpha (h : c.isAlpha = true) : isPathEncoded c = false ∧ isSlash k c = false := by
  have hc := toNat_lt_of_isAlpha h
  revert h
  exact of_ascii hc (by cases k <;> decide +kernel)

theorem canonicalPath_of_partedDrive? {drive rest : List Char} (hs : RawSegment k s)
    (h : partedDrive? s = some (drive,rest)) : CanonicalPath k [drive,percentEncode isPathEncoded rest] := by
  obtain ⟨letter,after,rfl,rfl,halpha,hafter,c,hc,hignored⟩ := exists_of_partedDrive? h
  have hk : k = .file := by
    by_contra hk
    simp [hs.kept hk c (hafter c hc)] at hignored
  have hdrive : Written k [letter,':'] := by
    refine List.forall_mem_cons.2 ⟨written_of_isAlpha halpha,?_⟩
    rw [List.forall_mem_singleton,hk]
    decide
  have hrest : Written k (percentEncode isPathEncoded (kept after)) :=
    written_percentEncode fun c hc => hs.uncut c (hafter c (List.mem_of_mem_filter hc))
  exact ⟨by simp [hdrive,hrest],.inr ⟨hk,by simp [beginsWithDrive,isDrive,halpha]⟩⟩

theorem CanonicalPath.addSegment (h : CanonicalPath k path) (hs : RawSegment k s) :
    CanonicalPath k (addSegment path s) := by
  have hkept : ∀ c ∈ kept s, isSlash k c = false := fun c hc => hs.uncut c (List.mem_of_mem_filter hc)
  unfold Uri.addSegment
  split
  · exact h.dropSegment
  · split
    · exact h
    · split
      · rename_i hparted
        exact canonicalPath_of_partedDrive? hs hparted
      · exact h.concat (written_percentEncode hkept) (isDots_percentEncode (by simpa using ‹¬isSingleDot _ = true›)
          (by simpa using ‹¬isDoubleDot _ = true›))

theorem CanonicalPath.addSegments (h : CanonicalPath k path) (hraw : ∀ s ∈ raw, RawSegment k s) :
    CanonicalPath k (addSegments path raw) := by
  induction raw generalizing path with
  | nil => exact h
  | cons s raw ih =>
    obtain ⟨hs,hraw⟩ := List.forall_mem_cons.1 hraw
    have hstep := h.addSegment hs
    rw [Uri.addSegments]
    refine ih ?_ hraw
    split
    · exact hstep.concat (by simp [Written]) (by decide)
    · rwa [List.append_nil]

theorem addSegments_ne_nil (path : List (List Char)) (hraw : raw ≠ []) : addSegments path raw ≠ [] := by
  induction raw generalizing path with
  | nil => contradiction
  | cons s raw ih =>
    rw [addSegments]
    cases raw with
    | cons t raw => exact ih _ (by simp)
    | nil =>
      cases hdots : isDots s with
      | true => simp [addSegments]
      | false =>
        rw [isDots,Bool.or_eq_false_iff] at hdots
        simp only [addSegments,addSegment,hdots.1,hdots.2,Bool.false_eq_true,if_false]
        split <;> simp

theorem addSegment_of_written (hs : Written k s) (hdots : isDots s = false) : addSegment path s = path ++ [s] := by
  have hparted := partedDrive?_eq_none hs.isIgnored
  rw [isDots,hs.kept,Bool.or_eq_false_iff] at hdots
  simp [addSegment,hdots,hparted,hs.kept,hs.percentEncode]

theorem addSegments_of_written (hraw : ∀ s ∈ raw, Written k s ∧ isDots s = false) :
    addSegments path raw = path ++ raw := by
  induction raw generalizing path with
  | nil => simp [addSegments]
  | cons s raw ih =>
    obtain ⟨⟨hs,hdots⟩,hraw⟩ := List.forall_mem_cons.1 hraw
    simp [addSegments,addSegment_of_written hs hdots,hdots,ih hraw]

/-- Segments that are not resolved leave a drive where it is. -/
theorem meetsDrive_of_written (path : List (List Char)) (hraw : ∀ s ∈ raw, Written k s ∧ isDots s = false) :
    meetsDrive path raw = (path.isEmpty && beginsWithDrive raw) := by
  induction raw generalizing path with
  | nil => simp [meetsDrive,beginsWithDrive]
  | cons s raw ih =>
    obtain ⟨⟨hs,hdots⟩,hraw⟩ := List.forall_mem_cons.1 hraw
    simp [meetsDrive,addSegment_of_written hs hdots,ih _ hraw,hs.kept,beginsWithDrive]

theorem CanonicalPath.meetsDrive (h : CanonicalPath k path) : meetsDrive [] path = beginsWithDrive path := by
  rcases h.resolved with hdots | ⟨-,hdrive⟩
  · simpa using meetsDrive_of_written [] fun s hs => ⟨h.written s hs,hdots s hs⟩
  · cases path with
    | nil => simp [beginsWithDrive] at hdrive
    | cons drive rest =>
      have hkept := (h.written drive (by simp)).kept
      have hdrive' : isDrive drive = true := by simpa [beginsWithDrive] using hdrive
      simp [Uri.meetsDrive,hkept,hdrive',hdrive]

theorem rawSegments_eq (k : SchemeKind) (s : List Char) : rawSegments k s =
    if s.isEmpty && k = .other then []
    else (if s.head?.any (isSlash k) then s.drop 1 else s).splitOnP (isSlash k) := rfl

/-- Every segment of a text is free of slashes and a part of it. -/
theorem of_mem_splitOnP {p : Char → Bool} {piece : List Char} (h : piece ∈ s.splitOnP p) :
    (∀ c ∈ piece, p c = false) ∧ ∀ c ∈ piece, c ∈ s := by
  induction s generalizing piece with
  | nil => simp_all
  | cons c s ih =>
    obtain ⟨first,pieces,hpieces⟩ := List.exists_cons_of_ne_nil (List.splitOnP_ne_nil p s)
    have hwider : ∀ piece ∈ first :: pieces, (∀ d ∈ piece, p d = false) ∧ ∀ d ∈ piece, d ∈ c :: s := fun _ hpiece =>
       (ih (hpieces ▸ hpiece)).imp_right fun hsub d hd => List.mem_cons_of_mem c (hsub d hd)
    rw [List.splitOnP_cons_eq_if_modifyHead,hpieces] at h
    split at h
    · rcases List.mem_cons.1 h with rfl | h
      · simp
      · exact hwider piece h
    · rename_i hc
      rcases List.mem_cons.1 h with rfl | h
      · obtain ⟨hfree,hsub⟩ := hwider first (by simp)
        exact ⟨List.forall_mem_cons.2 ⟨by simpa using hc,hfree⟩,List.forall_mem_cons.2 ⟨by simp,hsub⟩⟩
      · exact hwider piece (List.mem_cons_of_mem _ h)

theorem rawSegment_of_mem (hkept : k ≠ .file → ∀ c ∈ s, isIgnored c = false) (h : rest ∈ rawSegments k s) :
    RawSegment k rest := by
  rw [rawSegments_eq] at h
  split at h
  · simp at h
  · obtain ⟨huncut,hmem⟩ := of_mem_splitOnP h
    refine ⟨huncut,fun hk c hc => hkept hk c ?_⟩
    have hc := hmem c hc
    split at hc
    · exact List.mem_of_mem_drop hc
    · exact hc

theorem rawSegments_ne_nil (h : s ≠ [] ∨ k ≠ .other) : rawSegments k s ≠ [] := by
  rw [rawSegments_eq,if_neg (by simpa [or_iff_not_imp_left] using h)]
  exact List.splitOnP_ne_nil _ _

theorem splitOnP_append_pathText (hs : Written k s) (hpath : ∀ s ∈ path, Written k s) :
    (s ++ pathText path).splitOnP (isSlash k) = s :: path := by
  induction path generalizing s with
  | nil => simpa [pathText] using List.splitOnP_eq_singleton fun c hc => (hs c hc).2
  | cons t path ih =>
    obtain ⟨ht,hpath⟩ := List.forall_mem_cons.1 hpath
    have hslash : isSlash k '/' = true := by simp [isSlash]
    have htext : pathText (t :: path) = '/' :: (t ++ pathText path) := by simp [pathText]
    rw [htext,List.splitOnP_append_cons_of_forall_mem (fun c hc => (hs c hc).2) '/' hslash,ih ht hpath]

/-- The segments of a path are found again in its text. -/
theorem rawSegments_pathText (hpath : ∀ s ∈ path, Written k s) (h : path ≠ [] ∨ k = .other) :
    rawSegments k (pathText path) = path := by
  cases path with
  | nil =>
    obtain rfl : k = .other := by simpa using h
    rfl
  | cons s path =>
    obtain ⟨hs,hpath⟩ := List.forall_mem_cons.1 hpath
    have htext : pathText (s :: path) = '/' :: (s ++ pathText path) := by simp [pathText]
    have hslash : isSlash k '/' = true := by simp [isSlash]
    simp [rawSegments_eq,htext,hslash,splitOnP_append_pathText hs hpath]

theorem not_isPathEncoded_of_mem_pathText (hpath : ∀ s ∈ path, Written k s) (h : c ∈ pathText path) :
    isPathEncoded c = false := by
  obtain ⟨s,hs,hc⟩ := List.mem_flatMap.1 h
  rcases List.mem_cons.1 hc with rfl | hc
  · decide
  · exact (hpath s hs c hc).1

end TraceEngine.Uri
