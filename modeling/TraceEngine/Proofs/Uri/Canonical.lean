import Mathlib.Data.List.DropRight
import TraceEngine.Proofs.Uri.Host
import TraceEngine.Proofs.Uri.Path

/-!
Addresses as reading leaves them, whichever of the readers has read them.
-/
namespace TraceEngine.Uri

open Text

variable {b : Bool} {k : SchemeKind} {scheme s : List Char} {c : Char} {u : Uri} {path : List (List Char)}

structure IsScheme (s : List Char) : Prop where
  head : (s.headD ':').isAlpha = true
  chars : ∀ c ∈ s, isSchemeChar c = true
  lower : lowered s = s

theorem toNat_lt_of_isSchemeChar (h : isSchemeChar c = true) : c.toNat < 128 := by
  simp only [isSchemeChar,Char.isAlphanum,Bool.or_eq_true,decide_eq_true_eq] at h
  rcases h with (((halpha | hdigit) | rfl) | rfl) | rfl
  · exact toNat_lt_of_isAlpha halpha
  · exact toNat_lt_of_isDigit hdigit
  all_goals decide

theorem isSchemeChar_toLower (h : isSchemeChar c = true) :
    isSchemeChar c.toLower = true ∧ c.toLower.toLower = c.toLower := by
  have hc := toNat_lt_of_isSchemeChar h
  revert h
  exact of_ascii hc (by decide +kernel)

theorem isAlpha_toLower (h : c.isAlpha = true) : c.toLower.isAlpha = true := by
  have hc := toNat_lt_of_isAlpha h
  revert h
  exact of_ascii hc (by decide +kernel)

theorem isScheme_lowered (hhead : (s.headD ':').isAlpha = true) (hchars : s.all isSchemeChar = true) :
    IsScheme (lowered s) := by
  rw [List.all_eq_true] at hchars
  refine ⟨?_,List.forall_mem_map.2 fun c hc => (isSchemeChar_toLower (hchars c hc)).1,
    List.map_map.trans (List.map_congr_left fun c hc => (isSchemeChar_toLower (hchars c hc)).2)⟩
  cases s with
  | nil => contradiction
  | cons => exact isAlpha_toLower hhead

theorem isScheme_of_readScheme? {rest : List Char} (h : readScheme? s = some (scheme,rest)) : IsScheme scheme := by
  unfold readScheme? at h
  dsimp only at h
  split at h
  · obtain ⟨hscheme,hpair⟩ := Option.ite_none_right_eq_some.1 h
    rw [Bool.and_eq_true] at hscheme
    exact (Prod.mk.inj (Option.some.inj hpair)).1 ▸ isScheme_lowered hscheme.1 hscheme.2
  · contradiction

/-- The path of a file does not begin with empty segments. -/
def withoutEmptyFront (path : List (List Char)) : List (List Char) :=
  let path := path.dropWhile (·.isEmpty)
  if path.isEmpty then [[]] else path

/-- Nothing in a text is left to be encoded. -/
def Encoded (inSet : Char → Bool) (s : List Char) : Prop := ∀ c ∈ s, inSet c = false

theorem Encoded.percentEncode {inSet : Char → Bool} (h : Encoded inSet s) : percentEncode inSet s = s :=
  percentEncode_of_all_not h

theorem encoded_percentEncode {inSet : Char → Bool} (hpercent : inSet '%' = false)
    (hdigit : ∀ d < 16, inSet (hexDigit d).toUpper = false) (s : List Char) :
    Encoded inSet (Uri.percentEncode inSet s) :=
  forall_mem_percentEncode (fun _ _ hkept => hkept) hpercent hdigit

theorem encoded_credential (s : List Char) : Encoded isCredentialEncoded (percentEncode isCredentialEncoded s) :=
  encoded_percentEncode (by decide) (by decide) s

theorem encoded_query (k : SchemeKind) (s : List Char) :
    Encoded (isQueryEncoded k) (percentEncode (isQueryEncoded k) s) :=
  encoded_percentEncode (by cases k <;> decide) (by cases k <;> decide) s

theorem encoded_fragment (s : List Char) : Encoded isFragmentEncoded (percentEncode isFragmentEncoded s) :=
  encoded_percentEncode (by decide) (by decide) s

/-- Addresses as reading leaves them. That of a file has no credentials. -/
structure Canonical (u : Uri) : Prop where
  scheme : IsScheme u.scheme
  username : Encoded isCredentialEncoded u.username
  password : ∀ p ∈ u.password, p ≠ [] ∧ Encoded isCredentialEncoded p
  host : u.host.Canonical (.of u.scheme)
  host_ne : u.host ≠ .name []
  port : ∀ p ∈ u.port, p ≤ 65535 ∧ defaultPort u.scheme ≠ some p
  path : CanonicalPath (.of u.scheme) u.path
  path_ne : SchemeKind.of u.scheme ≠ .other → u.path ≠ []
  query : ∀ q ∈ u.query, Encoded (isQueryEncoded (.of u.scheme)) q
  fragment : ∀ f ∈ u.fragment, Encoded isFragmentEncoded f
  file : SchemeKind.of u.scheme = .file → (u.username = [] ∧ u.password = none) ∧ u.port = none ∧
    u.host ≠ .name "localhost".toList ∧ withoutEmptyFront u.path = u.path

theorem withoutEmptyFront_withoutEmptyFront (path : List (List Char)) :
    withoutEmptyFront (withoutEmptyFront path) = withoutEmptyFront path := by
  by_cases hempty : (path.dropWhile (·.isEmpty)).isEmpty
  · simp only [withoutEmptyFront,hempty,if_pos]
    rfl
  · rw [withoutEmptyFront,withoutEmptyFront,if_neg hempty,List.dropWhile_idempotent,if_neg hempty]

theorem withoutEmptyFront_ne_nil (path : List (List Char)) : withoutEmptyFront path ≠ [] := by
  simp only [withoutEmptyFront]
  split <;> simp_all

theorem withoutEmptyFront_of_beginsWithDrive (h : beginsWithDrive path = true) : withoutEmptyFront path = path := by
  cases path with
  | nil => simp [beginsWithDrive] at h
  | cons drive rest =>
    have hdrive : drive.isEmpty = false := by
      cases drive with
      | nil => simp [beginsWithDrive,isDrive] at h
      | cons => rfl
    simp [withoutEmptyFront,hdrive]

theorem CanonicalPath.withoutEmptyFront (h : CanonicalPath k path) : CanonicalPath k (withoutEmptyFront path) := by
  have hmem : ∀ s ∈ Uri.withoutEmptyFront path, s ∈ path ∨ s = [] := by
    intro s hs
    simp only [Uri.withoutEmptyFront] at hs
    split at hs
    · exact .inr (List.mem_singleton.1 hs)
    · exact .inl (List.dropWhile_subset _ hs)
  refine ⟨fun s hs => ?_,h.resolved.imp (fun hdots s hs => ?_) fun ⟨hk,hdrive⟩ => ⟨hk,?_⟩⟩
  · rcases hmem s hs with hs | rfl
    · exact h.written s hs
    · simp [Written]
  · rcases hmem s hs with hs | rfl
    · exact hdots s hs
    · decide
  · rwa [withoutEmptyFront_of_beginsWithDrive hdrive]

/-- What is read of the text behind the colon, if there is one. -/
def readPortText (default : Option ℕ) : Option (List Char) → Except Fault (Option ℕ × List Char)
  | some text => readPort default text
  | none => .ok (none,[])

theorem readPortText_le {default port : Option ℕ} {text : Option (List Char)} {rest : List Char}
    (h : readPortText default text = .ok (port,rest)) :
    (∀ p ∈ port, p ≤ 65535 ∧ default ≠ some p) ∧ ∀ c ∈ rest, ∃ t ∈ text, c ∈ t := by
  cases text with
  | none =>
    obtain ⟨rfl,rfl⟩ := Prod.mk.inj (Except.ok.inj h)
    simp
  | some text =>
    simp only [readPortText,readPort] at h
    split at h
    · contradiction
    · rename_i hport
      obtain ⟨rfl,rfl⟩ := Prod.mk.inj (Except.ok.inj h)
      refine ⟨fun p hp => ?_,fun c hc => ⟨text,rfl,List.dropWhile_subset _ hc⟩⟩
      simp only [Bool.or_eq_true,decide_eq_true_eq,not_or,not_lt] at hport
      obtain ⟨hused,hp⟩ := Option.ite_none_left_eq_some.1 hp
      obtain rfl := Option.some.inj hp
      simp only [Bool.or_eq_true,decide_eq_true_eq,not_or] at hused
      exact ⟨hport.1,hused.2⟩

theorem mem_of_mem_splitPort {text : List Char} (h : (splitPort b s).2 = some text) : ∀ c ∈ text, c ∈ s := by
  induction s generalizing b with
  | nil => simp [splitPort] at h
  | cons c s ih =>
    simp only [splitPort] at h
    split at h
    · obtain rfl := Option.some.inj h
      exact fun d hd => List.mem_cons_of_mem _ hd
    · exact fun d hd => List.mem_cons_of_mem _ (ih h d hd)

theorem mem_of_mem_splitCredentials (h : c ∈ (splitCredentials s).2) : c ∈ s := by
  unfold splitCredentials at h
  dsimp only at h
  split at h
  · exact List.mem_reverse.1 (List.takeWhile_subset _ (List.mem_reverse.1 h))
  · exact h

theorem mem_of_mem_splitTail (h : c ∈ (splitTail s).1) : c ∈ s := by
  have hpath : (splitTail s).1 = s.takeWhile fun c => c != '?' && c != '#' := by
    unfold splitTail
    dsimp only
    split
    · split <;> rfl
    · rfl
    · rfl
  exact List.takeWhile_subset _ (hpath ▸ h)

theorem encoded_readCredentials (s : List Char) : Encoded isCredentialEncoded (readCredentials s).1 ∧
    ∀ p ∈ (readCredentials s).2, p ≠ [] ∧ Encoded isCredentialEncoded p := by
  refine ⟨encoded_credential _,fun p hp => ?_⟩
  obtain ⟨hne,hp⟩ := Option.ite_none_left_eq_some.1 hp
  obtain rfl := Option.some.inj hp
  exact ⟨percentEncode_ne_nil (by simpa using hne),encoded_credential _⟩

/-- Credentials, host and port in what stands in front of the path. -/
def authorityParts (k : SchemeKind) (s : List Char) : List Char × List Char × Option (List Char) :=
  let credentials := splitCredentials (s.takeWhile (!endsAuthority k ·))
  (credentials.1,splitPort false credentials.2)

theorem readAuthority_eq (k : SchemeKind) (scheme s : List Char) : readAuthority k scheme s =
    let parts := authorityParts k s
    (readHost k parts.2.1).bind fun host =>
      if host.isEmpty then .error .emptyHost
      else (readPortText (defaultPort scheme) parts.2.2).bind fun port =>
        let tail := splitTail (port.2 ++ s.dropWhile (!endsAuthority k ·))
        .ok ⟨scheme,(readCredentials parts.1).1,(readCredentials parts.1).2,host,port.1,
          addSegments [] (rawSegments k tail.1),tail.2.1.map (percentEncode (isQueryEncoded k)),
          tail.2.2.map (percentEncode isFragmentEncoded)⟩ := by
  have hport : ∀ (text : Option (List Char)) (f : Option ℕ × List Char → Except Fault Uri),
      (match text with
        | some text => (readPort (defaultPort scheme) text).bind f
        | none => (Except.ok (none,[])).bind f) = (readPortText (defaultPort scheme) text).bind f := by
    rintro (_ | text) f <;> rfl
  simp only [← hport]
  by_cases hk : k = .other
  · subst hk
    rfl
  · simp only [readAuthority,readHost,if_neg hk]
    rfl

theorem mem_of_mem_authorityParts {text : List Char} (htext : (authorityParts k s).2.2 = some text) (h : c ∈ text) :
    c ∈ s :=
  List.takeWhile_subset _ (mem_of_mem_splitCredentials (mem_of_mem_splitPort htext c h))

theorem canonical_of_readAuthority (hk : SchemeKind.of scheme = k) (hfile : k ≠ .file) (hscheme : IsScheme scheme)
    (hkept : ∀ c ∈ s, isIgnored c = false) (h : readAuthority k scheme s = .ok u) : u.Canonical := by
  rw [readAuthority_eq] at h
  dsimp only at h
  cases hhost : readHost k (authorityParts k s).2.1 with
  | error =>
    rw [hhost] at h
    contradiction
  | ok host =>
    rw [hhost,Except.bind] at h
    split at h
    · contradiction
    · rename_i hne
      cases hport : readPortText (defaultPort scheme) (authorityParts k s).2.2 with
      | error =>
        rw [hport] at h
        contradiction
      | ok port =>
        rw [hport] at h
        obtain rfl := Except.ok.inj h
        obtain ⟨hle,hrest⟩ := readPortText_le hport
        have hpath : ∀ c ∈ (splitTail (port.2 ++ s.dropWhile (!endsAuthority k ·))).1, isIgnored c = false := by
          intro c hc
          refine hkept c ?_
          rcases List.mem_append.1 (mem_of_mem_splitTail hc) with hc | hc
          · obtain ⟨text,htext,hc⟩ := hrest c hc
            exact mem_of_mem_authorityParts htext hc
          · exact List.dropWhile_subset _ hc
        exact {
          scheme := hscheme
          username := (encoded_readCredentials _).1
          password := (encoded_readCredentials _).2
          host := by simpa only [hk] using canonical_of_readHost hhost
          host_ne := by simpa [Host.isEmpty] using hne
          port := hle
          path := by
            simpa only [hk] using (canonicalPath_nil k).addSegments fun s hs => rawSegment_of_mem (fun _ => hpath) hs
          path_ne := fun hother => addSegments_ne_nil _ (rawSegments_ne_nil (.inr (hk ▸ hother)))
          query := fun q hq => by
            obtain ⟨raw,-,rfl⟩ := Option.map_eq_some_iff.1 hq
            simpa only [hk] using encoded_query k raw
          fragment := fun f hf => by
            obtain ⟨raw,-,rfl⟩ := Option.map_eq_some_iff.1 hf
            exact encoded_fragment raw
          file := fun hfile' => absurd (hk.symm.trans hfile') hfile }

theorem isScheme_file : IsScheme "file".toList := ⟨by decide,List.all_eq_true.1 (by decide),by decide⟩

theorem kind_eq_file_iff : SchemeKind.of scheme = .file ↔ scheme = "file".toList := by
  refine ⟨fun h => ?_,fun h => if_pos h⟩
  unfold SchemeKind.of at h
  split at h
  · assumption
  · split at h <;> contradiction

theorem canonical_of_readFileHost (h : readFileHost s = .ok u) : u.Canonical := by
  unfold readFileHost at h
  dsimp only at h
  split at h
  · contradiction
  · cases hhost : readName (kept (s.takeWhile (!endsAuthority .file ·))) with
    | error =>
      rw [hhost] at h
      contradiction
    | ok host =>
      rw [hhost] at h
      simp only [bind,Except.bind] at h
      split at h
      · contradiction
      · rename_i hlocal
        obtain rfl := Except.ok.inj h
        simp only [Bool.or_eq_true,decide_eq_true_eq,not_or] at hlocal
        have hraw : ∀ t ∈ rawSegments .file (splitTail (s.dropWhile (!endsAuthority .file ·))).1, RawSegment .file t :=
          fun t ht => rawSegment_of_mem (fun hk => absurd rfl hk) ht
        have hcanonical : host.Canonical .file := canonical_of_readHost hhost
        exact {
          scheme := isScheme_file
          username := by simp [Encoded]
          password := by simp
          host := hcanonical
          host_ne := hcanonical.ne_name_nil (by decide)
          port := by simp
          path := ((canonicalPath_nil .file).addSegments hraw).withoutEmptyFront
          path_ne := fun _ => withoutEmptyFront_ne_nil _
          query := fun q hq => by
            obtain ⟨raw,-,rfl⟩ := Option.map_eq_some_iff.1 hq
            exact encoded_query .file _
          fragment := fun f hf => by
            obtain ⟨raw,-,rfl⟩ := Option.map_eq_some_iff.1 hf
            exact encoded_fragment _
          file := fun _ => ⟨⟨rfl,rfl⟩,rfl,hlocal.1,withoutEmptyFront_withoutEmptyFront _⟩ }

theorem canonical_of_read {text : String} (h : read text = .ok u) : u.Canonical := by
  unfold read at h
  split at h
  · contradiction
  · rename_i scheme rest hscheme
    have hscheme := isScheme_of_readScheme? hscheme
    have hkept : ∀ c ∈ kept rest, isIgnored c = false := by simp [kept]
    split at h
    · rename_i hk
      exact canonical_of_readAuthority hk (by decide) hscheme
        (fun c hc => hkept c (List.dropWhile_subset _ hc)) h
    · split at h
      · exact canonical_of_readFileHost h
      · contradiction
    · rename_i hk
      split at h
      · rename_i after hafter
        exact canonical_of_readAuthority hk (by decide) hscheme (fun c hc => hkept c (by simp [hafter,hc])) h
      · contradiction

end TraceEngine.Uri
