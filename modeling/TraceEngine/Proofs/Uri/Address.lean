import TraceEngine.Proofs.Identifier
import TraceEngine.Proofs.Text.Blank
import TraceEngine.Uri.Host

/-!
Addresses in the place of a host. Reading gives four bytes, or eight pieces of two bytes each, and every such address
is read back from its text.
-/
namespace TraceEngine.Uri

open Text

variable {value : ℕ} {s : List Char}

theorem lt_of_combineNumbers? {numbers : List ℕ} (h : combineNumbers? numbers = some value) : value < 2 ^ 32 := by
  unfold combineNumbers? at h
  split at h
  · contradiction
  · rename_i last before _
    obtain ⟨⟨hfilled,hlast,hbefore⟩,hvalue⟩ := Option.ite_none_right_eq_some.1 h
    have hvalue : Identifier.bigEndian before.reverse * 256 ^ (4 - before.length) + last = value :=
      Option.some.inj hvalue
    have hfirst : Identifier.bigEndian before.reverse < 256 ^ before.length := by
      rw [Identifier.bigEndian_eq,List.reverse_reverse]
      exact Nat.ofDigits_lt_base_pow_length (by decide) (by simpa using hbefore)
    calc value
      _ < (Identifier.bigEndian before.reverse + 1) * 256 ^ (4 - before.length) := by
        rw [← hvalue,Nat.succ_mul]
        exact Nat.add_lt_add_left hlast _
      _ ≤ 256 ^ before.length * 256 ^ (4 - before.length) := Nat.mul_le_mul_right _ hfirst
      _ = 2 ^ 32 := by
        rw [← Nat.pow_add,Nat.add_sub_cancel' hfilled.le]
        norm_num

theorem lt_of_readBytes? (h : readBytes? s = some value) : value < 2 ^ 32 := by
  obtain ⟨_,-,hnumbers⟩ := Option.bind_eq_some_iff.1 h
  exact lt_of_combineNumbers? hnumbers

theorem addressNumber?_decimal {n : ℕ} (h : n < 256) : addressNumber? (decimal n) = some n := by
  have hall : ∀ n < 256, addressNumber? (decimal n) = some n := by decide +kernel
  exact hall n h

/-- The labels of an address in its text. -/
def byteLabels (value : ℕ) : List (List Char) := [24,16,8,0].map fun shift => decimal (value / 2 ^ shift % 256)

theorem isDigit_of_mem_byteLabels {label : List Char} (h : label ∈ byteLabels value) {c : Char} (hc : c ∈ label) :
    c.isDigit = true := by
  obtain ⟨_,-,rfl⟩ := List.mem_map.1 h
  exact isDigit_of_mem_decimal hc

theorem splitOn_bytesText (value : ℕ) : (bytesText value).splitOn '.' = byteLabels value := by
  refine List.splitOn_intercalate '.' (fun label hlabel hpoint => ?_) (by simp)
  simpa using isDigit_of_mem_byteLabels hlabel hpoint

theorem isDigit_or_point_of_mem_bytesText {c : Char} (h : c ∈ bytesText value) : c.isDigit = true ∨ c = '.' :=
  forall_mem_intercalate (P := fun c => c.isDigit = true ∨ c = '.') (by simp)
    (fun _ hlabel _ hc => .inl (isDigit_of_mem_byteLabels hlabel hc)) c h

theorem endsInNumber_bytesText (value : ℕ) : endsInNumber (bytesText value) = true := by
  have hnumber := addressNumber?_decimal (Nat.mod_lt value (show 0 < 256 by decide))
  rw [endsInNumber,splitOn_bytesText]
  simp [byteLabels,hnumber]

theorem readBytes?_bytesText (h : value < 2 ^ 32) : readBytes? (bytesText value) = some value := by
  have hlabels : (byteLabels value).mapM addressNumber? = some ([24,16,8,0].map (value / 2 ^ · % 256)) := by
    simp [byteLabels,addressNumber?_decimal,Nat.mod_lt]
  rw [readBytes?,splitOn_bytesText,if_neg (by simp [byteLabels]),hlabels]
  simp [combineNumbers?,Nat.mod_lt]
  omega

theorem hexNumber?_hex (n : ℕ) : hexNumber? (hex n) = some n := by
  have hdigit : ∀ d < 16, hexValue? (Nat.digitChar d) = some d := by decide
  induction n using Nat.strongRecOn with
  | ind n ih =>
    by_cases hn : n < 16
    · simp [hex,Nat.toDigits_of_lt_base hn,hexNumber?,hdigit n hn]
    · have hfront := ih (n / 16) (by omega)
      have hlast := hdigit (n % 16) (Nat.mod_lt n (by decide))
      rw [hexNumber?,hex] at hfront ⊢
      rw [Nat.toDigits_of_base_le (by decide) (not_lt.1 hn),List.foldlM_append,hfront]
      simp [hlast,Nat.div_add_mod]

theorem hexDigits_hex (n : ℕ) : HexDigits (hex n) := by
  by_contra h
  have hnumber := hexNumber?_hex n
  simp [hexNumber?_eq,h] at hnumber

theorem isDigitOf_of_isHexDigit {c : Char} (h : IsHexDigit c) : isDigitOf 16 c = true := by
  simp [isDigitOf,hexValue?_eq,h,idxOf_lt h]

theorem hexNumber?_lt (h : hexNumber? s = some value) : value < 16 ^ s.length := by
  rw [hexNumber?_eq,Option.ite_none_right_eq_some] at h
  exact Option.some.inj h.2 ▸ hexDenoted_lt h.1

/-- What reading leaves of an address: eight pieces of two bytes. -/
structure EightPieces (pieces : List ℕ) : Prop where
  length : pieces.length = 8
  lt : ∀ p ∈ pieces, p < 2 ^ 16

theorem readByte?_lt (h : readByte? s = some value) : value < 256 := by
  unfold readByte? at h
  split at h
  · contradiction
  · obtain ⟨hlt,hvalue⟩ := Option.ite_none_right_eq_some.1 h
    exact Option.some.inj hvalue ▸ hlt

/-- A list that is read at all has been read item by item. -/
theorem exists_of_mem_of_mapM {α β : Type} {f : α → Option β} {xs : List α} {ys : List β} (h : xs.mapM f = some ys) :
    ∀ y ∈ ys, ∃ x ∈ xs, f x = some y := by
  induction xs generalizing ys with
  | nil =>
    obtain rfl : [] = ys := by simpa using h
    simp
  | cons x xs ih =>
    rw [List.mapM_cons] at h
    obtain ⟨y,hy,hrest⟩ := Option.bind_eq_some_iff.1 h
    obtain ⟨ys',hys,hcons⟩ := Option.bind_eq_some_iff.1 hrest
    obtain rfl : y :: ys' = ys := Option.some.inj hcons
    intro z hz
    rcases List.mem_cons.1 hz with rfl | hz
    · exact ⟨x,by simp,hy⟩
    · obtain ⟨x',hx',hread⟩ := ih hys z hz
      exact ⟨x',by simp [hx'],hread⟩

theorem readBytesAsPieces?_lt {two : List ℕ} (h : readBytesAsPieces? s = some two) : ∀ p ∈ two, p < 2 ^ 16 := by
  unfold readBytesAsPieces? at h
  split at h
  · rename_i a b c d hbytes
    have hlt : ∀ n ∈ [a,b,c,d], n < 256 := by
      intro n hn
      obtain ⟨_,-,hread⟩ := exists_of_mem_of_mapM hbytes n hn
      exact readByte?_lt hread
    simp only [List.forall_mem_cons] at hlt
    obtain ⟨ha,hb,hc,hd,-⟩ := hlt
    obtain rfl := Option.some.inj h
    simp
    omega
  · contradiction

variable {gap gap' : Option ℕ} {before pieces : List ℕ} {c : Char} {rest : List Char}

/-- The digits of the piece in front. -/
def pieceDigits (s : List Char) : List Char := (s.take 4).takeWhile (isDigitOf 16)

@[simp] theorem readPieces?_nil : readPieces? gap before [] = some (gap,before) := by rw [readPieces?]

@[simp] theorem readPieces?_colon : readPieces? gap before (':' :: rest) =
    if before.length = 8 ∨ gap.isSome then none else readPieces? (some (before.length + 1)) (before ++ [0]) rest := by
  rw [readPieces?]
  split <;> simp_all

/-- What becomes of a piece, by what follows its digits. -/
theorem readPieces?_cons (hc : c ≠ ':') : readPieces? gap before (c :: rest) =
    if before.length = 8 then none
    else
      let digits := pieceDigits (c :: rest)
      let value := (hexNumber? digits).getD 0
      match (c :: rest).drop digits.length with
      | [] => some (gap,before ++ [value])
      | '.' :: _ =>
        if digits.isEmpty || 6 < before.length then none
        else (readBytesAsPieces? (c :: rest)).map fun two => (gap,before ++ two)
      | ':' :: more => if more.isEmpty then none else readPieces? gap (before ++ [value]) more
      | _ => none := by
  rw [readPieces?,if_neg hc]
  dsimp only [pieceDigits]
  split
  · rfl
  · split <;> simp only [*]

theorem pieceValue_lt (s : List Char) : (hexNumber? (pieceDigits s)).getD 0 < 2 ^ 16 := by
  cases hnumber : hexNumber? (pieceDigits s) with
  | none => simp
  | some value =>
    have hlength : (pieceDigits s).length ≤ 4 :=
      (List.takeWhile_sublist _).length_le.trans (by simp [List.length_take])
    calc value
      _ < 16 ^ (pieceDigits s).length := hexNumber?_lt hnumber
      _ ≤ 2 ^ 16 := Nat.pow_le_pow_right (by decide) hlength

theorem readPieces?_lt (h : readPieces? gap before s = some (gap',pieces)) (hbefore : ∀ p ∈ before, p < 2 ^ 16) :
    ∀ p ∈ pieces, p < 2 ^ 16 := by
  -- The reader goes on behind a whole piece, so the induction is on the length of what is left.
  induction hn : s.length using Nat.strongRecOn generalizing gap before s with
  | ind n ih =>
    cases s with
    | nil => simp_all
    | cons c rest =>
      by_cases hc : c = ':'
      · subst hc
        rw [readPieces?_colon,Option.ite_none_left_eq_some] at h
        exact ih rest.length (by simp [← hn]) h.2 (List.forall_mem_append.2 ⟨hbefore,by simp⟩) rfl
      · rw [readPieces?_cons hc,Option.ite_none_left_eq_some] at h
        obtain ⟨-,h⟩ := h
        have hvalue : ∀ p ∈ before ++ [(hexNumber? (pieceDigits (c :: rest))).getD 0], p < 2 ^ 16 :=
          List.forall_mem_append.2 ⟨hbefore,by simpa using pieceValue_lt (c :: rest)⟩
        dsimp only at h
        split at h
        · obtain ⟨rfl,rfl⟩ := Prod.mk.inj (Option.some.inj h)
          exact hvalue
        · obtain ⟨-,h⟩ := Option.ite_none_left_eq_some.1 h
          obtain ⟨two,htwo,hpieces⟩ := Option.map_eq_some_iff.1 h
          obtain ⟨rfl,rfl⟩ := Prod.mk.inj hpieces
          exact List.forall_mem_append.2 ⟨hbefore,readBytesAsPieces?_lt htwo⟩
        · rename_i more hmore
          obtain ⟨-,h⟩ := Option.ite_none_left_eq_some.1 h
          have hlength := congrArg List.length hmore
          simp only [List.length_drop,List.length_cons] at hlength hn
          exact ih more.length (by omega) h hvalue rfl
        · contradiction

/-- Reads the pieces that are written. -/
def writtenPieces? : List Char → Option (Option ℕ × List ℕ)
  | ':' :: ':' :: rest => readPieces? (some 1) [0] rest
  | ':' :: _ => none
  | s => readPieces? none [] s

/-- Puts in the zero pieces that are not written. -/
def filledPieces? : Option ℕ × List ℕ → Option (List ℕ)
  | (none,pieces) => if pieces.length = 8 then some pieces else none
  | (some gap,pieces) =>
    if pieces.length ≤ 8 then
      some (pieces.take gap ++ List.replicate (8 - pieces.length) 0 ++ pieces.drop gap)
    else none

theorem readPieceAddress?_eq (s : List Char) : readPieceAddress? s = (writtenPieces? s).bind filledPieces? := by
  unfold readPieceAddress?
  dsimp only
  split
  all_goals
    rename_i hwritten
    rw [show writtenPieces? s = _ from hwritten]
    rfl

theorem writtenPieces?_lt (h : writtenPieces? s = some (gap,pieces)) : ∀ p ∈ pieces, p < 2 ^ 16 := by
  unfold writtenPieces? at h
  split at h
  · exact readPieces?_lt h (by simp)
  · contradiction
  · exact readPieces?_lt h (by simp)

theorem eightPieces_of_filledPieces? {filled : List ℕ} (h : filledPieces? (gap,pieces) = some filled)
    (hlt : ∀ p ∈ pieces, p < 2 ^ 16) : EightPieces filled := by
  cases gap with
  | none =>
    obtain ⟨hlength,hfilled⟩ := Option.ite_none_right_eq_some.1 h
    exact Option.some.inj hfilled ▸ ⟨hlength,hlt⟩
  | some gap =>
    obtain ⟨hlength,hfilled⟩ := Option.ite_none_right_eq_some.1 h
    obtain rfl := Option.some.inj hfilled
    refine ⟨by simp; omega,?_⟩
    have hzeros : ∀ p ∈ List.replicate (8 - pieces.length) 0, p < 2 ^ 16 := by simp
    exact List.forall_mem_append.2 ⟨List.forall_mem_append.2 ⟨fun p hp => hlt p (List.mem_of_mem_take hp),hzeros⟩,
      fun p hp => hlt p (List.mem_of_mem_drop hp)⟩

theorem eightPieces_of_readPieceAddress? (h : readPieceAddress? s = some pieces) : EightPieces pieces := by
  rw [readPieceAddress?_eq] at h
  obtain ⟨_,hwritten,hfilled⟩ := Option.bind_eq_some_iff.1 h
  exact eightPieces_of_filledPieces? hfilled (writtenPieces?_lt hwritten)

/-- Pieces with colons between them. -/
def joinedPieces (pieces : List ℕ) : List Char := [':'].intercalate (pieces.map hex)

theorem length_hex_le {n : ℕ} (h : n < 2 ^ 16) : (hex n).length ≤ 4 :=
  (Nat.length_toDigits_le_iff (by decide) (by decide)).2 h

theorem not_isDigitOf_colon : isDigitOf 16 ':' = false := by decide

/-- A piece ends where the text does or at a colon. -/
theorem pieceDigits_hex {n : ℕ} (h : n < 2 ^ 16) (rest : List Char) (hrest : ∀ c ∈ rest.head?, c = ':') :
    pieceDigits (hex n ++ rest) = hex n := by
  have hdigits : ∀ c ∈ hex n, isDigitOf 16 c = true := fun c hc => isDigitOf_of_isHexDigit (hexDigits_hex n c hc)
  have hstop : (rest.take (4 - (hex n).length)).takeWhile (isDigitOf 16) = [] := by
    cases rest with
    | nil => simp
    | cons c rest =>
      obtain rfl : c = ':' := hrest c rfl
      cases 4 - (hex n).length <;> simp [not_isDigitOf_colon]
  rw [pieceDigits,List.take_append,List.take_of_length_le (length_hex_le h),
    List.takeWhile_append_of_pos hdigits,hstop,List.append_nil]

theorem exists_hex_eq_cons (n : ℕ) : ∃ c s, hex n = c :: s ∧ c ≠ ':' := by
  obtain ⟨c,s,hcons⟩ := List.exists_cons_of_ne_nil (Nat.toDigits_ne_nil (n := n) (b := 16))
  refine ⟨c,s,hcons,?_⟩
  rintro rfl
  have hcolon := hexDigits_hex n ':' (by rw [hex,hcons]; simp)
  revert hcolon
  decide

theorem readPieces?_last {n : ℕ} (h : n < 2 ^ 16) (hbefore : before.length < 8) :
    readPieces? gap before (hex n) = some (gap,before ++ [n]) := by
  have hdigits := pieceDigits_hex h [] (by simp)
  obtain ⟨c,s,hcons,hc⟩ := exists_hex_eq_cons n
  rw [List.append_nil] at hdigits
  rw [hcons,readPieces?_cons hc,if_neg hbefore.ne,← hcons,hdigits]
  simp [hexNumber?_hex]

theorem readPieces?_next {n : ℕ} (h : n < 2 ^ 16) (hbefore : before.length < 8) (c : Char) (rest : List Char) :
    readPieces? gap before (hex n ++ ':' :: c :: rest) = readPieces? gap (before ++ [n]) (c :: rest) := by
  have hdigits := pieceDigits_hex h (':' :: c :: rest) (by simp)
  obtain ⟨d,s,hcons,hd⟩ := exists_hex_eq_cons n
  rw [hcons,List.cons_append,readPieces?_cons hd,if_neg hbefore.ne,← List.cons_append,← hcons,hdigits]
  simp [hexNumber?_hex]

theorem joinedPieces_cons_cons (p q : ℕ) (ps : List ℕ) :
    joinedPieces (p :: q :: ps) = hex p ++ ':' :: joinedPieces (q :: ps) := by
  simp [joinedPieces,List.intercalate_cons_cons]

theorem exists_joinedPieces_eq_cons (p : ℕ) (ps : List ℕ) : ∃ c s, joinedPieces (p :: ps) = c :: s ∧ c ≠ ':' := by
  obtain ⟨c,s,hcons,hc⟩ := exists_hex_eq_cons p
  cases ps with
  | nil => exact ⟨c,s,by simpa [joinedPieces] using hcons,hc⟩
  | cons q ps =>
    refine ⟨c,s ++ ':' :: joinedPieces (q :: ps),?_,hc⟩
    rw [joinedPieces_cons_cons,hcons,List.cons_append]

theorem readPieces?_joined (gap : Option ℕ) (before : List ℕ) {ps : List ℕ} (hps : ∀ p ∈ ps, p < 2 ^ 16)
    (hlength : before.length + ps.length ≤ 8) :
    readPieces? gap before (joinedPieces ps) = some (gap,before ++ ps) := by
  induction ps generalizing before with
  | nil => simp [joinedPieces]
  | cons p ps ih =>
    obtain ⟨hp,hps⟩ := List.forall_mem_cons.1 hps
    rw [List.length_cons] at hlength
    cases ps with
    | nil => simpa [joinedPieces] using readPieces?_last hp (by omega)
    | cons q ps =>
      obtain ⟨c,s,hcons,-⟩ := exists_joinedPieces_eq_cons q ps
      have hrest := ih (before ++ [p]) hps (by simp at hlength ⊢; omega)
      rw [joinedPieces_cons_cons,hcons,readPieces?_next hp (by omega),← hcons,hrest]
      simp

/-- Pieces in front of a pair of colons. -/
theorem readPieces?_joined_gap (before : List ℕ) {ps : List ℕ} (hne : ps ≠ []) (hps : ∀ p ∈ ps, p < 2 ^ 16)
    (hlength : before.length + ps.length < 8) (s : List Char) :
    readPieces? none before (joinedPieces ps ++ ':' :: ':' :: s) =
      readPieces? (some (before.length + ps.length + 1)) (before ++ ps ++ [0]) s := by
  induction ps generalizing before with
  | nil => contradiction
  | cons p ps ih =>
    obtain ⟨hp,hps⟩ := List.forall_mem_cons.1 hps
    rw [List.length_cons] at hlength
    cases ps with
    | nil =>
      have hgap : ¬((before ++ [p]).length = 8 ∨ (none : Option ℕ).isSome = true) := by
        simp at hlength ⊢
        omega
      simp only [joinedPieces,List.map_cons,List.map_nil,List.intercalate_singleton]
      rw [readPieces?_next hp (by omega),readPieces?_colon,if_neg hgap]
      simp
    | cons q ps =>
      obtain ⟨c,t,hcons,-⟩ := exists_joinedPieces_eq_cons q ps
      have hrest := ih (before ++ [p]) (by simp) hps (by simp at hlength ⊢; omega)
      rw [joinedPieces_cons_cons,List.append_assoc,List.cons_append,hcons,List.cons_append,
        readPieces?_next hp (by omega),← List.cons_append,← hcons,hrest]
      simp [Nat.add_assoc,Nat.add_comm 1]

/-- At each place stand the zeros of its run. -/
theorem drop_zeroRuns (ps : List ℕ) (i : ℕ) :
    ps.drop i = List.replicate ((zeroRuns ps).getD i 0) 0 ++ ps.drop (i + (zeroRuns ps).getD i 0) := by
  induction ps generalizing i with
  | nil => simp [zeroRuns]
  | cons p ps ih =>
    cases i with
    | zero =>
      by_cases hp : p = 0
      · have hrest := ih 0
        have hhead : (zeroRuns ps).headD 0 = (zeroRuns ps).getD 0 0 := by cases zeroRuns ps <;> rfl
        rw [List.drop_zero,Nat.zero_add] at hrest
        simp only [zeroRuns,hp,if_pos,hhead,List.getD_cons_zero,List.drop_zero,Nat.zero_add,List.drop_succ_cons,
          List.replicate_succ,List.cons_append,← hrest]
      · simp [zeroRuns,hp]
    | succ i =>
      rw [zeroRuns,List.getD_cons_succ,List.drop_succ_cons,Nat.add_right_comm,List.drop_succ_cons]
      exact ih i

theorem foldl_max_mem (xs : List ℕ) (n : ℕ) : xs.foldl max n = n ∨ xs.foldl max n ∈ xs := by
  induction xs generalizing n with
  | nil => simp
  | cons x xs ih =>
    rw [List.foldl_cons]
    rcases ih (max n x) with h | h
    · rw [h]
      rcases max_choice n x with hmax | hmax
      · exact .inl hmax
      · exact .inr (by simp [hmax])
    · exact .inr (by simp [h])

/-- The text of an address whose zeros are not left out, or with the zeros that are left out between the other
pieces. -/
theorem piecesText_eq (ps : List ℕ) :
    piecesText ps = joinedPieces ps ∨
      ∃ front back k, 2 ≤ k ∧ ps = front ++ List.replicate k 0 ++ back ∧
        piecesText ps = joinedPieces front ++ ':' :: ':' :: joinedPieces back := by
  let longest := (zeroRuns ps).foldl max 0
  let start := (zeroRuns ps).idxOf longest
  have htext : piecesText ps = if longest < 2 then joinedPieces ps
      else joinedPieces (ps.take start) ++ [':',':'] ++ joinedPieces (ps.drop (start + longest)) := rfl
  -- At the place of the longest run stand as many zeros as it is long, and these are the ones left out.
  by_cases hshort : longest < 2
  · exact .inl (by rw [htext,if_pos hshort])
  · have hmem : longest ∈ zeroRuns ps := (foldl_max_mem (zeroRuns ps) 0).resolve_left fun hzero => by
      rw [not_lt,show longest = 0 from hzero] at hshort
      contradiction
    have hrun : (zeroRuns ps).getD start 0 = longest := by
      simp [start,List.getD,List.getElem?_idxOf hmem]
    have hdrop := drop_zeroRuns ps start
    rw [hrun] at hdrop
    refine .inr ⟨ps.take start,ps.drop (start + longest),longest,not_lt.1 hshort,?_,?_⟩
    · rw [List.append_assoc,← hdrop,List.take_append_drop]
    · rw [htext,if_neg hshort]
      simp

theorem writtenPieces?_cons (hc : c ≠ ':') : writtenPieces? (c :: rest) = readPieces? none [] (c :: rest) := by
  rw [writtenPieces?] <;> simp [hc]

theorem writtenPieces?_gap {front back : List ℕ} (hfront : ∀ p ∈ front, p < 2 ^ 16) (hback : ∀ p ∈ back, p < 2 ^ 16)
    (hlength : front.length + 1 + back.length ≤ 8) :
    writtenPieces? (joinedPieces front ++ ':' :: ':' :: joinedPieces back) =
      some (some (front.length + 1),front ++ [0] ++ back) := by
  have hread := readPieces?_joined (some (front.length + 1)) (front ++ [0]) hback (by simpa using hlength)
  cases front with
  | nil => simpa [joinedPieces,writtenPieces?] using hread
  | cons p ps =>
    obtain ⟨c,s,hcons,hc⟩ := exists_joinedPieces_eq_cons p ps
    have hgap := readPieces?_joined_gap [] (by simp) hfront (by simp at hlength ⊢; omega) (joinedPieces back)
    rw [hcons,List.cons_append] at hgap
    rw [hcons,List.cons_append,writtenPieces?_cons hc,hgap]
    simpa using hread

theorem readPieceAddress?_piecesText (h : EightPieces pieces) :
    readPieceAddress? (piecesText pieces) = some pieces := by
  obtain ⟨hlength,hlt⟩ := h
  rw [readPieceAddress?_eq]
  rcases piecesText_eq pieces with htext | ⟨front,back,k,hk,rfl,htext⟩
  · obtain ⟨p,ps,rfl⟩ := List.exists_cons_of_length_eq_add_one hlength
    obtain ⟨c,s,hcons,hc⟩ := exists_joinedPieces_eq_cons p ps
    have hread := readPieces?_joined none [] hlt (by simpa using hlength.le)
    rw [hcons] at hread
    rw [htext,hcons,writtenPieces?_cons hc,hread]
    simpa [filledPieces?] using hlength
  · simp only [List.length_append,List.length_replicate] at hlength
    simp only [List.forall_mem_append] at hlt
    have hzeros : 8 - (front ++ [0] ++ back).length = k - 1 := by
      simp
      omega
    have hk' : k = 1 + (k - 1) := by omega
    rw [htext,writtenPieces?_gap hlt.1.1 hlt.2 (by omega),Option.bind_some,filledPieces?,if_pos (by simp; omega),
      hzeros,List.take_left' (by simp),List.drop_left' (by simp)]
    conv_rhs => rw [hk',List.replicate_add]
    simp

theorem isHexDigit_or_colon_of_mem_piecesText (h : c ∈ piecesText pieces) : IsHexDigit c ∨ c = ':' := by
  have hjoined : ∀ ps, ∀ c ∈ joinedPieces ps, IsHexDigit c ∨ c = ':' := fun ps =>
    forall_mem_intercalate (by simp) (by simpa using fun p _ c hc => .inl (hexDigits_hex p c hc))
  rcases piecesText_eq pieces with htext | ⟨front,back,_,_,_,htext⟩
  · exact hjoined pieces c (htext ▸ h)
  · rw [htext] at h
    rcases List.mem_append.1 h with hc | hc
    · exact hjoined front c hc
    · simp only [List.mem_cons] at hc
      rcases hc with rfl | rfl | hc
      · exact .inr rfl
      · exact .inr rfl
      · exact hjoined back c hc

end TraceEngine.Uri
