import BigLower.Syntax.Quoted

/-! # Reading string literals back

A literal can be read back from the front of any text: its content is found, and
what follows it is left.
-/

namespace BigLower

namespace Quoted

theorem hexValue?_hexDigit {n : Nat} (small : n < 16) : hexValue? (hexDigit n) = some n := by
  have all : ∀ n : Fin 16, hexValue? (hexDigit n) = some n.val := by decide
  exact all ⟨n, small⟩

/-- Four digits stand for a number below sixteen to the fourth. -/
theorem hexFour_value {n : Nat} (small : n < 65536) :
    4096 * (n / 4096 % 16) + 256 * (n / 256 % 16) + 16 * (n / 16 % 16) + n % 16 = n := by
  omega

theorem toNat_lt_of_isControl {c : Char} (control : isControl c = true) : c.toNat < 65536 := by
  simp only [isControl, Bool.or_eq_true, Bool.and_eq_true, decide_eq_true_eq] at control
  omega

theorem decodeBody_hexFour {c : Char} (control : isControl c = true) (rest : List Char) :
    decodeBody ('\\' :: 'u' :: hexFour c.toNat ++ rest) =
      (decodeBody rest).map fun (cs, left) => (c :: cs, left) := by
  have below (n : Nat) : n % 16 < 16 := Nat.mod_lt n (by decide)
  simp only [hexFour, List.cons_append, List.nil_append, decodeBody, hexValue?_hexDigit (below _),
    Option.bind_eq_bind, Option.bind_some, hexFour_value (toNat_lt_of_isControl control),
    Char.ofNat_toNat]
  cases decodeBody rest <;> rfl

theorem decodeBody_escape (c : Char) (rest : List Char) :
    decodeBody (escape c ++ rest) = (decodeBody rest).map fun (cs, left) => (c :: cs, left) := by
  by_cases quote : c = '"'
  · subst quote
    simp [escape, decodeBody]
  by_cases backslash : c = '\\'
  · subst backslash
    simp [escape, decodeBody]
  by_cases newline : c = '\n'
  · subst newline
    simp [escape, decodeBody]
  by_cases turn : c = '\r'
  · subst turn
    simp [escape, decodeBody]
  by_cases tab : c = '\t'
  · subst tab
    simp [escape, decodeBody]
  simp only [escape, quote, backslash, newline, turn, tab, if_false]
  split
  · exact decodeBody_hexFour ‹_› rest
  · rw [List.singleton_append, decodeBody.eq_def]
    split <;> simp_all

theorem decode_encode_append (cs rest : List Char) :
    decode (encode cs ++ rest) = some (cs, rest) := by
  have body : decodeBody (cs.flatMap escape ++ '"' :: rest) = some (cs, rest) := by
    induction cs with
    | nil => simp [decodeBody]
    | cons c cs ih => rw [List.flatMap_cons, List.append_assoc, decodeBody_escape, ih]; rfl
  simpa [encode, decode] using body

end Quoted

end BigLower
