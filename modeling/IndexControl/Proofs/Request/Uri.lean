import IndexControl.Proofs.Path.Resolution
import IndexControl.Proofs.Path.Texts
import IndexControl.Request.Uri

/-!
# What file URIs name

A text is written into a URI character by character: a character stays as it is or is replaced by
all its bytes, each as a percent sign with two hexadecimal digits. Decoding a URI undoes this,
whichever characters were replaced. What a URI names is a text again.

## Main definitions

* `Uri.Escapes`, `Uri.Encodes`: bytes with their digits, and a text as it may stand in a URI.

## Main results

* `Uri.Encodes.percentDecode`: decoding undoes encoding.
* `Uri.isRooted_of_location?`, `Uri.isText_of_location?`: what is named lies at the root, and is text.
* `Uri.hasAuthority_of_normalize`: no plain path in normal form is taken for a URI.
* `Uri.location?_of_encodes`: a normal path is found again in all its spellings.
-/

namespace IndexControl

open Text

theorem Text.stripLead?_append (lead cs : List Char) : stripLead? lead (lead ++ cs) = some cs := by
  rw [stripLead?, if_pos (List.isPrefixOf_iff_prefix.2 (List.prefix_append lead cs)),
    List.drop_left]

namespace Uri

/-! ### Encoding -/

/-- A hexadecimal digit in either case. -/
def hexDigit (upper : Bool) (n : Nat) : Char :=
  if upper then (Nat.digitChar n).toUpper else Nat.digitChar n

/-- Bytes with a percent sign and two digits for each. -/
inductive Escapes : List UInt8 → List Char → Prop
  | nil : Escapes [] []
  | cons (b : UInt8) (upper upper' : Bool) {bytes : List UInt8} {es : List Char}
      (h : Escapes bytes es) :
      Escapes (b :: bytes)
        ('%' :: hexDigit upper (b.toNat / 16) :: hexDigit upper' (b.toNat % 16) :: es)

/-- Characters as they may stand in a URI: each as it is, unless it is a percent sign, or as all its
bytes with their digits. -/
inductive Encodes : List Char → List Char → Prop
  | nil : Encodes [] []
  | keep (c : Char) {cs es : List Char} (hc : c ≠ '%') (h : Encodes cs es) :
      Encodes (c :: cs) (c :: es)
  | escape (c : Char) {cs digits es : List Char}
      (hc : Escapes (String.utf8EncodeChar c) digits) (h : Encodes cs es) :
      Encodes (c :: cs) (digits ++ es)

/-! ### Decoding -/

section

variable {b : UInt8} {bytes : List UInt8} {c : Char} {cs es : List Char}

theorem encode_percent : String.utf8EncodeChar '%' = [percent] := by decide

theorem percentDecode_cons_of_ne (hb : b ≠ percent) (rest : List UInt8) :
    percentDecode (b :: rest) = b :: percentDecode rest := by
  match rest with
  | [] => rfl
  | [_] => rfl
  | _ :: _ :: _ =>
    rw [percentDecode, escaped?, if_neg hb]

theorem percentDecode_append_of_notMem (h : percent ∉ bytes) (rest : List UInt8) :
    percentDecode (bytes ++ rest) = bytes ++ percentDecode rest := by
  induction bytes with
  | nil => rfl
  | cons b bytes ih =>
    obtain ⟨hb, hbytes⟩ : percent ≠ b ∧ percent ∉ bytes := by simpa using h
    rw [List.cons_append, percentDecode_cons_of_ne hb.symm, ih hbytes]
    rfl

/-- A digit is one byte, from which its value is read. -/
theorem encode_hexDigit (upper : Bool) {n : Nat} (hn : n < 16) :
    ∃ digit, String.utf8EncodeChar (hexDigit upper n) = [digit] ∧ digit? digit = some n := by
  have hdigits : ∀ upper : Bool, ∀ n : Fin 16, (hexDigit upper n).toNat < 128 ∧
      digit? (UInt8.ofNat (hexDigit upper n).toNat) = some n.val := by decide
  obtain ⟨hlow, hvalue⟩ := hdigits upper ⟨n, hn⟩
  exact ⟨_, utf8EncodeChar_of_lt hlow, hvalue⟩

/-- A percent sign with the digits of a byte is decoded to this byte. -/
theorem percentDecode_escaped (b : UInt8) (upper upper' : Bool) (es : List Char)
    (rest : List UInt8) :
    percentDecode (encode ('%' :: hexDigit upper (b.toNat / 16) ::
      hexDigit upper' (b.toNat % 16) :: es) ++ rest) = b :: percentDecode (encode es ++ rest) := by
  have hb : b.toNat < 256 := b.toNat_lt
  obtain ⟨high, hhigh, hvalue⟩ := encode_hexDigit upper (n := b.toNat / 16) (by omega)
  obtain ⟨low, hlow, hvalue'⟩ := encode_hexDigit upper' (n := b.toNat % 16) (by omega)
  have hbyte : byteOfDigits? high low = some b := by
    simp only [byteOfDigits?, hvalue, hvalue', Option.bind_eq_bind, Option.bind_some,
      Nat.div_add_mod', UInt8.ofNat_toNat]
    rfl
  simp only [encode_cons, encode_percent, hhigh, hlow, List.cons_append, List.nil_append]
  rw [percentDecode, escaped?, if_pos rfl, hbyte]

/-- Digits of bytes are decoded to these bytes, whatever comes behind. -/
theorem Escapes.percentDecode (h : Escapes bytes es) (rest : List UInt8) :
    percentDecode (encode es ++ rest) = bytes ++ percentDecode rest := by
  induction h with
  | nil => rfl
  | cons b upper upper' h ih =>
    rw [percentDecode_escaped, ih]
    rfl

/-- Decoding undoes encoding. -/
theorem Encodes.percentDecode (h : Encodes cs es) : percentDecode (encode es) = encode cs := by
  induction h with
  | nil => rfl
  | keep c hc h ih =>
    have hpercent : percent ∉ String.utf8EncodeChar c := by
      rw [mem_utf8EncodeChar_iff (by decide)]
      exact fun heq => hc (Char.toNat_inj.1 heq)
    rw [encode_cons, encode_cons, percentDecode_append_of_notMem hpercent, ih]
  | escape c hc h ih => rw [encode_append, hc.percentDecode, ih, encode_cons]

/-- The slash at the front of an absolute path is not taken for the name of a machine, however it is
encoded. -/
theorem Encodes.stripLead?_localHost (h : Encodes ('/' :: cs) es) :
    stripLead? localHost es = none := by
  generalize hpath : '/' :: cs = path at h
  cases h with
  | nil => contradiction
  | keep c hc h =>
    obtain rfl := (List.cons.inj hpath).1
    rfl
  | escape c hc h =>
    obtain rfl := (List.cons.inj hpath).1
    rw [Path.encode_slash] at hc
    cases hc
    rfl

end

/-! ### What is named -/

variable {uri p e : String} {place : Location}

theorem isText_of_path? {path : Path} (h : path? uri = some path) : IsText path.bytes := by
  rw [path?] at h
  split at h
  · obtain ⟨text, -, rfl⟩ := Option.map_eq_some_iff.1 h
    exact Path.isText_ofString text
  · split_ifs at h
    exact Option.some.inj h ▸ Path.isText_ofString uri

/-- What is named lies at the root. -/
theorem isRooted_of_location? (h : location? uri = some place) : place.IsRooted := by
  obtain ⟨path, hpath, rfl⟩ := Option.map_eq_some_iff.1 h
  have habsolute : path.isAbsolute = true := (Option.filter_eq_some_iff.1 hpath).2
  have hrooted := Location.isRooted_location habsolute
  rwa [hrooted.canonical]

theorem isCanonical_of_location? (h : location? uri = some place) : place.IsCanonical := by
  obtain ⟨path, -, rfl⟩ := Option.map_eq_some_iff.1 h
  exact Location.isCanonical_canonical path.location_isSpelled

/-- What is named is text. -/
theorem isText_of_location? (h : location? uri = some place) : IsText place.toPath.bytes := by
  obtain ⟨path, hpath, rfl⟩ := Option.map_eq_some_iff.1 h
  have htext := isText_of_path? (Option.filter_eq_some_iff.1 hpath).1
  exact Location.isText_toPath (Location.isText_canonical (Path.isText_toPiece htext))

/-! ### What a normal path is named by -/

/-- The mark of a URI has two slashes side by side. -/
theorem exists_of_hasAuthority {cs : List Char} (h : hasAuthority cs = true) :
    ∃ front back, cs = front ++ ':' :: '/' :: '/' :: back := by
  induction cs with
  | nil => contradiction
  | cons c cs ih =>
    rw [hasAuthority, Bool.or_eq_true] at h
    rcases h with hmark | hlater
    · obtain ⟨back, hback⟩ := List.isPrefixOf_iff_prefix.1 hmark
      exact ⟨[], back, hback.symm⟩
    · obtain ⟨front, back, rfl⟩ := ih hlater
      exact ⟨c :: front, back, rfl⟩

/-- No absolute path in normal form is taken for a URI. -/
theorem hasAuthority_of_normalize (habsolute : (Path.ofString p).isAbsolute = true)
    (hnormal : (Path.ofString p).normalize = Path.ofString p) :
    hasAuthority p.toList = false := by
  have hspelled := (Path.ofString p).location_isSpelled
  have hrooted := Location.isRooted_location habsolute
  rw [Path.normalize, hrooted.canonical] at hnormal
  refine Bool.eq_false_iff.2 fun hmark => ?_
  obtain ⟨front, back, hp⟩ := exists_of_hasAuthority hmark
  refine Location.toPath_ne_of_isRooted hspelled hrooted
    (encode (front ++ [':'])) (encode back) ?_
  have hbytes : encode (':' :: '/' :: '/' :: back) =
      encode [':'] ++ Path.slash :: Path.slash :: encode back := by
    simp only [encode_cons, Path.encode_slash, encode_nil, List.append_nil, List.cons_append,
      List.nil_append]
  rw [hnormal, Path.ofString, utf8_eq_encode, hp, encode_append, encode_append, hbytes,
    List.append_assoc]

/-- A URI that encodes a text names the path spelled by it, with or without the name of the local
machine. -/
theorem path?_of_encodes (rest : List Char) (huri : uri.toList = scheme ++ rest)
    (hrest : (stripLead? localHost rest).getD rest = e.toList) (h : Encodes p.toList e.toList) :
    path? uri = some (.ofString p) := by
  rw [path?, huri, stripLead?_append]
  simp only [hrest]
  rw [utf8_ofList, h.percentDecode, ← utf8_eq_encode, ofUtf8?_utf8, Option.map_some]

/-- A plain path is taken as it is. -/
theorem path?_of_isAbsolute (habsolute : (Path.ofString p).isAbsolute = true)
    (hplain : hasAuthority p.toList = false) : path? p = some (.ofString p) := by
  obtain ⟨cs, hp⟩ := Path.exists_toList_of_isAbsolute habsolute
  have hscheme : stripLead? scheme p.toList = none := hp ▸ rfl
  rw [path?, hscheme]
  simp only [hplain, Bool.false_eq_true, ↓reduceIte]

/-- An absolute path in normal form is named as it is. -/
theorem location?_of_path? {path : Path} (hpath : path? uri = some path)
    (habsolute : path.isAbsolute = true) (hnormal : path.normalize = path) :
    (location? uri).map Location.toPath = some path := by
  rw [location?, hpath, Option.filter_some, if_pos habsolute, Option.map_some, Option.map_some]
  exact congrArg some hnormal

/-- **Decoding a URI undoes encoding a path.** Let a text spell an absolute path in normal form, and
let each of its characters stay as it is or be replaced by all its bytes, as percent signs with two
digits in either case, and no percent sign stay. What comes of it, behind `file://` or behind
`file://localhost`, names this path again, and so does the text itself, in which nothing is decoded.
Whatever text names a path: the path is absolute, it is spelled by a text, and it is its own normal
form. -/
theorem location?_of_encodes :
    (∀ p e : String, (Path.ofString p).isAbsolute = true →
      (Path.ofString p).normalize = Path.ofString p → Encodes p.toList e.toList →
      ∀ uri ∈ ["file://" ++ e, "file://localhost" ++ e, p],
        (location? uri).map Location.toPath = some (Path.ofString p)) ∧
    ∀ uri place, location? uri = some place →
      place.toPath.isAbsolute = true ∧ (∃ text, place.toPath = Path.ofString text) ∧
        place.toPath.normalize = place.toPath := by
  refine ⟨fun p e habsolute hnormal hencodes uri huri => ?_, fun uri place hplace => ⟨?_, ?_, ?_⟩⟩
  · refine location?_of_path? ?_ habsolute hnormal
    obtain ⟨cs, hp⟩ := Path.exists_toList_of_isAbsolute habsolute
    have hlocal : stripLead? localHost e.toList = none :=
      Encodes.stripLead?_localHost (hp ▸ hencodes)
    rcases List.mem_cons.1 huri with rfl | huri
    · refine path?_of_encodes e.toList (String.toList_append ..) ?_ hencodes
      rw [hlocal]
      rfl
    rcases List.mem_cons.1 huri with rfl | huri
    · refine path?_of_encodes (localHost ++ e.toList) ?_ ?_ hencodes
      · rw [String.toList_append, ← List.append_assoc]
        rfl
      · rw [stripLead?_append]
        rfl
    · obtain rfl := List.mem_singleton.1 huri
      exact path?_of_isAbsolute habsolute (hasAuthority_of_normalize habsolute hnormal)
  · exact (isRooted_of_location? hplace).isAbsolute_toPath
  · exact Path.exists_ofString (isText_of_location? hplace)
  · exact Location.normalize_toPath (isCanonical_of_location? hplace)

/-- In the path `/a%é` the percent sign and the two bytes of `é` are replaced, with digits in
different cases, and in another URI an idle dot and a last slash go away. -/
theorem location?_of_encodes_mixed :
    let p := "/a%é"
    let e := "/a%25%c3%A9"
    (Path.ofString p).isAbsolute = true ∧ (Path.ofString p).normalize = Path.ofString p ∧
      Encodes p.toList e.toList ∧
      (location? ("file://localhost" ++ e)).map Location.toPath = some (Path.ofString p) ∧
      ∃ place, location? "file:///a/./b%2F" = some place ∧
        place.toPath = Path.ofString "/a/b" ∧ place.toPath.normalize = place.toPath := by
  intro p e
  have habsolute : (Path.ofString p).isAbsolute = true := by decide
  have hnormal : (Path.ofString p).normalize = Path.ofString p := by decide
  have hencodes : Encodes p.toList e.toList := by
    have hpercent : Escapes (String.utf8EncodeChar '%') ['%', '2', '5'] := .cons 0x25 true true .nil
    have haccent : Escapes (String.utf8EncodeChar 'é') ['%', 'c', '3', '%', 'A', '9'] :=
      .cons 0xC3 false false (.cons 0xA9 true true .nil)
    have hp : p.toList = ['/', 'a', '%', 'é'] := by decide
    have he : e.toList = ['/', 'a', '%', '2', '5', '%', 'c', '3', '%', 'A', '9'] := by decide
    rw [hp, he]
    exact .keep '/' (by decide) (.keep 'a' (by decide)
      (.escape '%' hpercent (.escape 'é' haccent .nil)))
  obtain ⟨hnamed, hnames⟩ := location?_of_encodes
  refine ⟨habsolute, hnormal, hencodes, ?_, (Path.ofString "/a/b").location, by decide, by decide, ?_⟩
  · exact hnamed p e habsolute hnormal hencodes _ (by simp)
  · exact (hnames "file:///a/./b%2F" _ (by decide)).2.2

end Uri

end IndexControl
