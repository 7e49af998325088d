import TraceEngine.Proofs.Uri.Canonical
import TraceEngine.Proofs.Uri.Library

/-!
Addresses are read from their texts again, with all their parts, unless the path of a file begins with a drive: then
there is no host any more.
-/
namespace TraceEngine.Uri

open Text

variable {k : SchemeKind} {scheme s : List Char} {c : Char} {u : Uri} {path : List (List Char)}

def tailText (u : Uri) : List Char := pathText u.path ++ Parts.ledBy '?' u.query ++ Parts.ledBy '#' u.fragment

theorem toList_text (u : Uri) :
    u.text.toList = u.scheme ++ ':' :: '/' :: '/' :: (u.parts.authorityText ++ u.tailText) := by
  simp [text,Parts.text,tailText,parts]

/-- A character that stands in an authority, and no reader passes it over. -/
def IsAuthorityChar (c : Char) : Prop := 0x20 < c.toNat ∧ c ∉ "/?#\\".toList

instance (c : Char) : Decidable (IsAuthorityChar c) := inferInstanceAs (Decidable (_ ∧ _))

theorem isAuthorityChar_of_isHostChar (h : IsHostChar c) : IsAuthorityChar c := ⟨h.1,by simp [ne_of_isHostChar h]⟩

theorem isAuthorityChar_of_encoded (h : isCredentialEncoded c = false) : IsAuthorityChar c ∧ c ≠ ':' ∧ c ≠ '@' := by
  have hne : ∀ d, isCredentialEncoded d = true → c ≠ d := by
    rintro d hd rfl
    rw [h] at hd
    contradiction
  rw [isCredentialEncoded,Bool.or_eq_false_iff] at h
  refine ⟨⟨lt_of_not_isPathEncoded h.1,?_⟩,hne ':' (by decide),hne '@' (by decide)⟩
  simp [hne '/' (by decide),hne '?' (by decide),hne '#' (by decide),hne '\\' (by decide)]

theorem lt_of_not_isControl (h : isControl c = false) (hspace : c ≠ ' ') : 0x20 < c.toNat := by
  have hne : c.toNat ≠ 0x20 := fun hc => hspace (Char.toNat_inj.1 hc)
  simp only [isControl,decide_eq_false_iff_not] at h
  omega

theorem lt_of_not_isQueryEncoded (h : isQueryEncoded k c = false) : 0x20 < c.toNat ∧ c ≠ '#' := by
  simp only [isQueryEncoded,Bool.or_eq_false_iff] at h
  refine ⟨lt_of_not_isControl h.1.1 ?_,?_⟩ <;> rintro rfl <;> exact absurd h.1.2 (by decide)

theorem lt_of_not_isFragmentEncoded (h : isFragmentEncoded c = false) : 0x20 < c.toNat := by
  rw [isFragmentEncoded,Bool.or_eq_false_iff] at h
  refine lt_of_not_isControl h.1 ?_
  rintro rfl
  exact absurd h.2 (by decide)

def serverText (u : Uri) : List Char := u.host.text ++ Parts.ledBy ':' (u.port.map decimal)

theorem authorityText_eq (u : Uri) : u.parts.authorityText = u.parts.credentialsText ++ u.serverText := by
  simp [Parts.authorityText,serverText,parts]

theorem Canonical.isHostChar (h : u.Canonical) : ∀ c ∈ u.serverText, IsHostChar c := by
  refine List.forall_mem_append.2 ⟨isHostChar_of_mem_text h.host,fun c hc => ?_⟩
  rcases Parts.mem_ledBy hc with rfl | ⟨digits,hdigits,hc⟩
  · decide
  · obtain ⟨p,-,rfl⟩ := Option.map_eq_some_iff.1 hdigits
    exact isHostChar_of_isDigit (isDigit_of_mem_decimal hc)

def credentials (u : Uri) : List Char := u.username ++ Parts.ledBy ':' u.password

theorem credentialsText_eq (u : Uri) :
    u.parts.credentialsText = if u.credentials = [] then [] else u.credentials ++ ['@'] := by
  have hempty : (u.username.isEmpty && u.password.isNone) = true ↔ u.credentials = [] := by
    cases hword : u.password <;> simp [credentials,Parts.ledBy,hword]
  simp only [Parts.credentialsText,parts,hempty]
  rfl

theorem Canonical.isAuthorityChar_credentials (h : u.Canonical) :
    ∀ c ∈ u.credentials, IsAuthorityChar c ∧ c ≠ '@' := by
  refine List.forall_mem_append.2 ⟨fun c hc => ?_,fun c hc => ?_⟩
  · exact (isAuthorityChar_of_encoded (h.username c hc)).imp_right And.right
  · rcases Parts.mem_ledBy hc with rfl | ⟨p,hp,hc⟩
    · decide
    · exact (isAuthorityChar_of_encoded ((h.password p hp).2 c hc)).imp_right And.right

theorem Canonical.isAuthorityChar (h : u.Canonical) : ∀ c ∈ u.parts.authorityText, IsAuthorityChar c := by
  rw [authorityText_eq,credentialsText_eq]
  refine List.forall_mem_append.2 ⟨?_,fun c hc => isAuthorityChar_of_isHostChar (h.isHostChar c hc)⟩
  split
  · simp
  · exact List.forall_mem_append.2 ⟨fun c hc => (h.isAuthorityChar_credentials c hc).1,by simp; decide⟩

theorem Canonical.serverText_ne_nil (h : u.Canonical) : u.serverText ≠ [] := by
  simp [serverText,h.host.text_ne_nil h.host_ne]

theorem Canonical.authorityText_ne_nil (h : u.Canonical) : u.parts.authorityText ≠ [] := by
  rw [authorityText_eq]
  exact List.append_ne_nil_of_right_ne_nil _ h.serverText_ne_nil

theorem isPlain_of_isSchemeChar (h : isSchemeChar c = true) : c ≠ ':' ∧ 0x20 < c.toNat := by
  have hc := toNat_lt_of_isSchemeChar h
  revert h
  exact of_ascii hc (by decide +kernel)

theorem Canonical.lt_of_mem_tailText (h : u.Canonical) : ∀ c ∈ u.tailText, 0x20 < c.toNat := by
  refine List.forall_mem_append.2 ⟨List.forall_mem_append.2 ⟨fun c hc => ?_,fun c hc => ?_⟩,fun c hc => ?_⟩
  · exact lt_of_not_isPathEncoded (not_isPathEncoded_of_mem_pathText h.path.written hc)
  · rcases Parts.mem_ledBy hc with rfl | ⟨q,hq,hc⟩
    · decide
    · exact (lt_of_not_isQueryEncoded (h.query q hq c hc)).1
  · rcases Parts.mem_ledBy hc with rfl | ⟨f,hf,hc⟩
    · decide
    · exact lt_of_not_isFragmentEncoded (h.fragment f hf c hc)

/-- No reader passes over any character of the text. -/
theorem Canonical.lt_of_mem_text (h : u.Canonical) : ∀ c ∈ u.text.toList, 0x20 < c.toNat := by
  rw [toList_text]
  simp only [List.forall_mem_cons,List.forall_mem_append]
  exact ⟨fun c hc => (isPlain_of_isSchemeChar (h.scheme.chars c hc)).2,by decide,by decide,by decide,
    fun c hc => (h.isAuthorityChar c hc).1,h.lt_of_mem_tailText⟩

theorem stripped_eq_self (h : ∀ c ∈ s, 0x20 < c.toNat) : stripped s = s := by
  have hstay : ∀ c ∈ s, decide (c.toNat ≤ 0x20) = false := fun c hc => by simpa using h c hc
  rw [stripped,strip,dropWhile_of_head? fun c hc => hstay c (List.mem_of_mem_head? hc),
    dropWhile_of_head? fun c hc => hstay c (List.mem_reverse.1 (List.mem_of_mem_head? hc)),List.reverse_reverse]

theorem kept_eq_self (h : ∀ c ∈ s, 0x20 < c.toNat) : kept s = s := kept_of_all_not fun c hc => isIgnored_of_lt (h c hc)

theorem readScheme?_eq (h : IsScheme scheme) (rest : List Char) :
    readScheme? (scheme ++ ':' :: rest) = some (scheme,rest) := by
  have htake : (scheme ++ ':' :: rest).takeWhile (· != ':') = scheme := by
    rw [List.takeWhile_append_of_pos fun c hc => by simpa using (isPlain_of_isSchemeChar (h.chars c hc)).1]
    simp
  have hdrop : (scheme ++ ':' :: rest).dropWhile (· != ':') = ':' :: rest := by
    rw [List.dropWhile_append_of_pos fun c hc => by simpa using (isPlain_of_isSchemeChar (h.chars c hc)).1]
    simp
  have hkept : kept scheme = scheme := kept_eq_self fun c hc => (isPlain_of_isSchemeChar (h.chars c hc)).2
  simp only [readScheme?,htake,hdrop,hkept,h.head,h.lower,List.all_eq_true.2 h.chars]
  rfl

theorem isDigitOf_of_isDigit (h : c.isDigit = true) : isDigitOf 10 c = true ∧ (hexValue? c).getD 0 = c.toNat - 48 := by
  have hc := toNat_lt_of_isDigit h
  revert h
  exact of_ascii hc (by decide +kernel)

theorem foldl_of_digits (hs : ∀ c ∈ s, c.isDigit = true) (n : ℕ) :
    s.foldl (fun n c => 10 * n + (hexValue? c).getD 0) n = Nat.ofDigitChars 10 s n := by
  induction s generalizing n with
  | nil => simp
  | cons c s ih =>
    obtain ⟨hc,hs⟩ := List.forall_mem_cons.1 hs
    rw [List.foldl_cons,ih hs,Nat.ofDigitChars_cons,(isDigitOf_of_isDigit hc).2]
    rfl

theorem readPort_decimal {default : Option ℕ} {p : ℕ} (hle : p ≤ 65535) (hdefault : default ≠ some p) :
    readPort default (decimal p) = .ok (some p,[]) := by
  have hdigits : ∀ c ∈ decimal p, isDigitOf 10 c = true := fun c hc =>
    (isDigitOf_of_isDigit (isDigit_of_mem_decimal hc)).1
  have htake : (decimal p).takeWhile (isDigitOf 10) = decimal p := List.takeWhile_eq_self_iff.2 hdigits
  have hdrop : (decimal p).dropWhile (isDigitOf 10) = [] := List.dropWhile_eq_nil_iff.2 hdigits
  have hvalue := foldl_of_digits (s := decimal p) (fun c hc => isDigit_of_mem_decimal hc) 0
  rw [ofDigitChars_decimal] at hvalue
  simp [readPort,htake,hdrop,hvalue,hdefault,hle]

theorem endsAuthority_of_isAuthorityChar (h : IsAuthorityChar c) : endsAuthority k c = false := by
  have hne : ∀ d ∈ "/?#\\".toList, c ≠ d := by
    rintro d hd rfl
    exact h.2 hd
  simp [endsAuthority,hne '/' (by decide),hne '?' (by decide),hne '#' (by decide),hne '\\' (by decide)]

/-- What follows the authority begins with a character that ends it. -/
theorem endsAuthority_head_tailText (u : Uri) (k : SchemeKind) : ∀ c ∈ u.tailText.head?, endsAuthority k c = true := by
  have hslash : endsAuthority k '/' = true := by simp [endsAuthority]
  have hquery : endsAuthority k '?' = true := by simp [endsAuthority]
  have hfragment : endsAuthority k '#' = true := by simp [endsAuthority]
  unfold tailText
  cases u.path <;> cases u.query <;> cases u.fragment <;> simp_all [pathText,Parts.ledBy]

/-- The authority ends where the path begins, or what comes after it. -/
theorem Canonical.split_authority (h : u.Canonical) (k : SchemeKind) :
    (u.parts.authorityText ++ u.tailText).takeWhile (!endsAuthority k ·) = u.parts.authorityText ∧
      (u.parts.authorityText ++ u.tailText).dropWhile (!endsAuthority k ·) = u.tailText := by
  have hauthority : ∀ c ∈ u.parts.authorityText, (!endsAuthority k c) = true := fun c hc => by
    simp [endsAuthority_of_isAuthorityChar (h.isAuthorityChar c hc)]
  have hends := u.endsAuthority_head_tailText k
  rw [List.takeWhile_append_of_pos hauthority,List.dropWhile_append_of_pos hauthority]
  cases htail : u.tailText with
  | nil => simp
  | cons c rest =>
    have hc : endsAuthority k c = true := hends c (by simp [htail])
    simp [hc]

theorem splitCredentials_of_notMem (h : '@' ∉ s) : splitCredentials s = ([],s) := by simp [splitCredentials,h]

theorem splitCredentials_append (h : '@' ∉ s) (credentials : List Char) :
    splitCredentials (credentials ++ '@' :: s) = (credentials,s) := by
  have htake : ((credentials ++ '@' :: s).reverse.takeWhile (· != '@')).reverse = s := by
    have hs : ∀ c ∈ s.reverse, (c != '@') = true := by
      intro c hc
      rw [bne_iff_ne]
      rintro rfl
      exact h (List.mem_reverse.1 hc)
    rw [List.reverse_append,List.reverse_cons,List.append_assoc,List.takeWhile_append_of_pos hs]
    simp
  have hlength : (credentials ++ '@' :: s).length - s.length - 1 = credentials.length := by
    simp only [List.length_append,List.length_cons]
    omega
  have hat : (credentials ++ '@' :: s).contains '@' = true := by simp
  simp only [splitCredentials,htake,hlength,hat]
  simp

theorem Canonical.readCredentials (h : u.Canonical) : readCredentials u.credentials = (u.username,u.password) := by
  have hname : ∀ c ∈ u.username, (c != ':') = true := fun c hc => by
    simpa using (isAuthorityChar_of_encoded (h.username c hc)).2.1
  cases hword : u.password with
  | none =>
    have hcredentials : u.credentials = u.username := by simp [credentials,hword,Parts.ledBy]
    simp [Uri.readCredentials,hcredentials,List.takeWhile_eq_self_iff.2 hname,List.dropWhile_eq_nil_iff.2 hname,
      h.username.percentEncode]
  | some p =>
    obtain ⟨hne,hencoded⟩ := h.password p hword
    have hcredentials : u.credentials = u.username ++ ':' :: p := by simp [credentials,hword,Parts.ledBy]
    simp [Uri.readCredentials,hcredentials,List.takeWhile_append_of_pos hname,List.dropWhile_append_of_pos hname,
      h.username.percentEncode,hencoded.percentEncode,hne]

theorem Canonical.authorityParts (h : u.Canonical) (k : SchemeKind) :
    authorityParts k (u.parts.authorityText ++ u.tailText) = (u.credentials,u.host.text,u.port.map decimal) := by
  have hat : '@' ∉ u.serverText := fun hat => (h.isHostChar _ hat).2.2 (by decide)
  have hcredentials : splitCredentials u.parts.authorityText = (u.credentials,u.serverText) := by
    rw [authorityText_eq,credentialsText_eq]
    split
    · rename_i hnone
      rw [List.nil_append,splitCredentials_of_notMem hat,hnone]
    · rw [List.append_assoc,List.singleton_append,splitCredentials_append hat]
  rw [Uri.authorityParts,(h.split_authority k).1,hcredentials]
  simp only [serverText,splitPort_text h.host]
  cases u.port <;> simp [Parts.ledBy,splitPort]

theorem Canonical.splitTail (h : u.Canonical) : splitTail u.tailText = (pathText u.path,u.query,u.fragment) := by
  have hpath : ∀ c ∈ pathText u.path, (c != '?' && c != '#') = true := by
    intro c hc
    have hne : ∀ d, isPathEncoded d = true → c ≠ d := by
      rintro d hd rfl
      rw [not_isPathEncoded_of_mem_pathText h.path.written hc] at hd
      contradiction
    simp [hne '?' (by decide),hne '#' (by decide)]
  have hquery : ∀ q ∈ u.query, ∀ c ∈ q, (c != '#') = true := fun q hq c hc => by
    simpa using (lt_of_not_isQueryEncoded (h.query q hq c hc)).2
  rw [tailText,List.append_assoc,Uri.splitTail,List.takeWhile_append_of_pos hpath,List.dropWhile_append_of_pos hpath]
  cases hq : u.query with
  | none => cases u.fragment <;> simp [Parts.ledBy]
  | some q =>
    have hq' := hquery q hq
    cases u.fragment with
    | none => simp [Parts.ledBy,List.dropWhile_eq_nil_iff.2 hq']
    | some f => simp [Parts.ledBy,List.takeWhile_append_of_pos hq',List.dropWhile_append_of_pos hq']

theorem Canonical.map_query (h : u.Canonical) (hk : SchemeKind.of u.scheme = k) :
    u.query.map (percentEncode (isQueryEncoded k)) = u.query := by
  cases hq : u.query with
  | none => rfl
  | some q =>
    have hencoded : Encoded (isQueryEncoded k) q := hk ▸ h.query q hq
    exact congrArg some hencoded.percentEncode

theorem Canonical.map_fragment (h : u.Canonical) : u.fragment.map (percentEncode isFragmentEncoded) = u.fragment := by
  cases hf : u.fragment with
  | none => rfl
  | some f => exact congrArg some (Encoded.percentEncode (h.fragment f hf))

theorem Canonical.kept_query (h : u.Canonical) : ∀ q ∈ u.query, kept q = q := fun q hq =>
  kept_eq_self fun c hc => (lt_of_not_isQueryEncoded (h.query q hq c hc)).1

theorem Canonical.kept_fragment (h : u.Canonical) : ∀ f ∈ u.fragment, kept f = f := fun f hf =>
  kept_eq_self fun c hc => lt_of_not_isFragmentEncoded (h.fragment f hf c hc)

theorem Canonical.path_ne_nil_or (h : u.Canonical) (hk : SchemeKind.of u.scheme = k) : u.path ≠ [] ∨ k = .other := by
  by_cases hother : k = .other
  · exact .inr hother
  · exact .inl (h.path_ne (hk ▸ hother))

theorem Canonical.readAuthority (h : u.Canonical) (hk : SchemeKind.of u.scheme = k) (hfile : k ≠ .file) :
    readAuthority k u.scheme (u.parts.authorityText ++ u.tailText) = .ok u := by
  have hpath : CanonicalPath k u.path := hk ▸ h.path
  have hhost : readHost k u.host.text = .ok u.host := readHost_text (hk ▸ h.host)
  have hport : readPortText (defaultPort u.scheme) (u.port.map decimal) = .ok (u.port,[]) := by
    cases hport : u.port with
    | none => rfl
    | some p => exact readPort_decimal (h.port p hport).1 (h.port p hport).2
  have hne : u.host.isEmpty = false := by simpa [Host.isEmpty] using h.host_ne
  have hresolved : ∀ s ∈ u.path, Written k s ∧ isDots s = false := fun s hs =>
    ⟨hpath.written s hs,(hpath.resolved.resolve_right fun hdrive => hfile hdrive.1) s hs⟩
  have hsegments : addSegments [] (rawSegments k (pathText u.path)) = u.path := by
    rw [rawSegments_pathText hpath.written (h.path_ne_nil_or hk),addSegments_of_written hresolved,List.nil_append]
  rw [readAuthority_eq]
  simp only [h.authorityParts k,hhost,Except.bind,hne,hport,(h.split_authority k).2,List.nil_append,
    h.splitTail,hsegments,h.readCredentials,h.map_query hk,h.map_fragment]
  rfl

theorem Canonical.readFileHost (h : u.Canonical) (hk : SchemeKind.of u.scheme = .file) :
    readFileHost (u.parts.authorityText ++ u.tailText) =
      if beginsWithDrive u.path then .error .emptyHost else .ok u := by
  have hpath : CanonicalPath .file u.path := hk ▸ h.path
  have hcanonical : u.host.Canonical .file := hk ▸ h.host
  obtain ⟨⟨hname,hword⟩,hport,hlocal,hfront⟩ := h.file hk
  obtain ⟨htake,hdrop⟩ := h.split_authority .file
  have hauthority : u.parts.authorityText = u.host.text := by
    simp [authorityText_eq,credentialsText_eq,credentials,serverText,hname,hword,hport,Parts.ledBy]
  rw [hauthority] at htake hdrop ⊢
  have hkept : kept u.host.text = u.host.text := kept_eq_self fun c hc => (isHostChar_of_mem_text hcanonical c hc).1
  have hhost : readName u.host.text = .ok u.host := readHost_text hcanonical
  have hempty : u.host.text.isEmpty = false := by simpa using hcanonical.text_ne_nil h.host_ne
  have hsegments : rawSegments .file (pathText u.path) = u.path :=
    rawSegments_pathText hpath.written (h.path_ne_nil_or hk)
  rw [Uri.readFileHost]
  simp only [htake,hdrop,hkept,hempty,isDrive_text hcanonical (by decide),hhost,h.splitTail,
    hsegments,decide_eq_false hlocal,hpath.meetsDrive,bind,Except.bind]
  cases hdrive : beginsWithDrive u.path with
  | true => rfl
  | false =>
    -- Without a drive in the first place no dots are left, and no segment is changed.
    have hresolved : ∀ s ∈ u.path, Written .file s ∧ isDots s = false := fun s hs =>
      ⟨hpath.written s hs,hpath.resolved.resolve_right (by simp [hdrive]) s hs⟩
    have hquery : u.query.map (fun q => percentEncode (isQueryEncoded .file) (kept q)) = u.query := by
      refine (Option.map_congr fun q hq => ?_).trans (h.map_query hk)
      rw [h.kept_query q hq]
    have hfragment : u.fragment.map (fun f => percentEncode isFragmentEncoded (kept f)) = u.fragment := by
      refine (Option.map_congr fun f hf => ?_).trans h.map_fragment
      rw [h.kept_fragment f hf]
    rw [addSegments_of_written hresolved,hquery,hfragment]
    change Except.ok (Uri.mk "file".toList [] none u.host none (withoutEmptyFront u.path) u.query u.fragment) = .ok u
    rw [hfront,← kind_eq_file_iff.1 hk,← hname,← hword,← hport]

/-- An address is read from its text again, unless its path begins with a drive. -/
theorem Canonical.read (h : u.Canonical) : read u.text =
    if u.scheme = "file".toList ∧ beginsWithDrive u.path = true then .error .emptyHost else .ok u := by
  have hstripped := stripped_eq_self h.lt_of_mem_text
  have hrest : kept ('/' :: '/' :: (u.parts.authorityText ++ u.tailText)) =
      '/' :: '/' :: (u.parts.authorityText ++ u.tailText) :=
    kept_eq_self fun c hc => h.lt_of_mem_text c (by
      rw [toList_text]
      exact List.mem_append_right _ (List.mem_cons_of_mem _ hc))
  rw [Uri.read,hstripped,toList_text,readScheme?_eq h.scheme]
  simp only [← kind_eq_file_iff]
  cases hk : SchemeKind.of u.scheme with
  | network =>
    have hslashes : ('/' :: '/' :: (u.parts.authorityText ++ u.tailText)).dropWhile (fun c => c = '/' || c = '\\') =
        u.parts.authorityText ++ u.tailText := by
      obtain ⟨c,t,hcons⟩ := List.exists_cons_of_ne_nil h.authorityText_ne_nil
      have hc : IsAuthorityChar c := h.isAuthorityChar c (by simp [hcons])
      have hne : c ≠ '/' ∧ c ≠ '\\' := by
        constructor <;> rintro rfl <;> exact hc.2 (by decide)
      simp [hcons,hne]
    simpa [hk,hrest,hslashes] using h.readAuthority hk (by decide)
  | file =>
    simpa [hk,afterSlash?,isIgnored] using h.readFileHost hk
  | other =>
    simpa [hk,hrest] using h.readAuthority hk (by decide)

end TraceEngine.Uri
