import WhisperNet.Crypto.Primitives

/-!
# A Model of the Primitives

The laws of `Primitives.Lawful` are consistent: `reference` satisfies them. It
is not a secure implementation of anything. Its signatures and ciphertexts
carry the key in the clear, its codecs write numbers in unary, and all that
matters is that every operation succeeds on the inputs the real one succeeds
on, that what it produces reads back, and that a signature or a ciphertext
made with one key does not pass under another.

Results that are parametric in the primitives are instantiated here when they
are applied to a concrete input.

## Main definitions

* `unaryText`: A prefix code for JSON values.
* `reference`: Primitives that satisfy the laws.

## Theorems

* `unaryText_append_inj`: The prefix code can be read back.
* `reference_lawful`: The laws are satisfiable.
* `reference_authenticated`: Decryption with a wrong key fails.
-/

namespace WhisperNet

namespace Reference

def unary (n : Nat) : PyStr := List.replicate n 1 ++ [0]

def unaryInt (n : Int) : PyStr := unary (if n < 0 then 1 else 0) ++ unary n.natAbs

def unaryStr : PyStr → PyStr
  | [] => unary 0
  | c :: s => unary 1 ++ (unary c.val ++ unaryStr s)

mutual

/-- A prefix code: a tag in unary, then the parts. -/
def unaryText : PyVal → PyStr
  | .none => unary 0
  | .bool b => unary 1 ++ unary b.toNat
  | .int n => unary 2 ++ unaryInt n
  | .float q => unary 3 ++ (unaryInt q.num ++ unary q.den)
  | .str s => unary 4 ++ unaryStr s
  | .list xs => unary 5 ++ unaryTextList xs
  | .dict kvs => unary 6 ++ unaryTextItems kvs

def unaryTextList : List PyVal → PyStr
  | [] => unary 0
  | x :: xs => unary 1 ++ (unaryText x ++ unaryTextList xs)

def unaryTextItems : List (PyStr × PyVal) → PyStr
  | [] => unary 0
  | (k, x) :: xs => unary 1 ++ (unaryStr k ++ (unaryText x ++ unaryTextItems xs))

end

theorem unary_append_inj (m n : Nat) (r r' : PyStr) (h : unary m ++ r = unary n ++ r') :
    m = n ∧ r = r' := by
  induction m generalizing n with
  | zero =>
      cases n with
      | zero =>
          simp only [unary, List.replicate_zero, List.nil_append, List.cons_append,
            List.cons.injEq, true_and] at h
          exact ⟨rfl, h⟩
      | succ n =>
          simp only [unary, List.replicate_zero, List.nil_append, List.replicate_succ,
            List.cons_append, List.cons.injEq] at h
          exact absurd h.1 (by decide)
  | succ m ih =>
      cases n with
      | zero =>
          simp only [unary, List.replicate_zero, List.nil_append, List.replicate_succ,
            List.cons_append, List.cons.injEq] at h
          exact absurd h.1 (by decide)
      | succ n =>
          simp only [unary, List.replicate_succ, List.cons_append, List.cons.injEq,
            true_and] at h
          rcases ih n h with ⟨hmn, hr⟩
          exact ⟨by rw [hmn], hr⟩

theorem unaryInt_append_inj (m n : Int) (r r' : PyStr)
    (h : unaryInt m ++ r = unaryInt n ++ r') : m = n ∧ r = r' := by
  unfold unaryInt at h
  rw [List.append_assoc, List.append_assoc] at h
  rcases unary_append_inj _ _ _ _ h with ⟨hsign, hrest⟩
  rcases unary_append_inj _ _ _ _ hrest with ⟨habs, hr⟩
  refine ⟨?_, hr⟩
  by_cases hm : m < 0
  · by_cases hn : n < 0
    · omega
    · rw [if_pos hm, if_neg hn] at hsign
      omega
  · by_cases hn : n < 0
    · rw [if_neg hm, if_pos hn] at hsign
      omega
    · omega

theorem unaryStr_append_inj (s t : PyStr) (r r' : PyStr)
    (h : unaryStr s ++ r = unaryStr t ++ r') : s = t ∧ r = r' := by
  induction s generalizing t with
  | nil =>
      cases t with
      | nil => exact ⟨rfl, (unary_append_inj _ _ _ _ h).2⟩
      | cons d t =>
          simp only [unaryStr, List.append_assoc] at h
          exact absurd (unary_append_inj _ _ _ _ h).1 (by decide)
  | cons c s ih =>
      cases t with
      | nil =>
          simp only [unaryStr, List.append_assoc] at h
          exact absurd (unary_append_inj _ _ _ _ h).1 (by decide)
      | cons d t =>
          simp only [unaryStr, List.append_assoc] at h
          rcases unary_append_inj _ _ _ _ (unary_append_inj _ _ _ _ h).2 with ⟨hc, hrest⟩
          rcases ih t hrest with ⟨hs, hr⟩
          exact ⟨by rw [Fin.ext hc, hs], hr⟩

/-- The tag a code starts with. -/
def tag : PyVal → Nat
  | .none => 0
  | .bool _ => 1
  | .int _ => 2
  | .float _ => 3
  | .str _ => 4
  | .list _ => 5
  | .dict _ => 6

/-- The code after its tag. -/
def body : PyVal → PyStr
  | .none => []
  | .bool b => unary b.toNat
  | .int n => unaryInt n
  | .float q => unaryInt q.num ++ unary q.den
  | .str s => unaryStr s
  | .list xs => unaryTextList xs
  | .dict kvs => unaryTextItems kvs

theorem unaryText_eq (v : PyVal) : unaryText v = unary (tag v) ++ body v := by
  cases v with
  | none => simp only [unaryText, tag, body, List.append_nil]
  | bool b => rfl
  | int n => rfl
  | float q => rfl
  | str s => rfl
  | list xs => rfl
  | dict kvs => rfl

/-- Codes that agree have the same tag and agree after it. -/
theorem tag_body_of_append (v w : PyVal) (r r' : PyStr)
    (h : unaryText v ++ r = unaryText w ++ r') : tag v = tag w ∧ body v ++ r = body w ++ r' := by
  rw [unaryText_eq, unaryText_eq, List.append_assoc, List.append_assoc] at h
  exact unary_append_inj _ _ _ _ h

theorem bool_of_toNat (b c : Bool) (h : b.toNat = c.toNat) : b = c := by
  cases b with
  | false => cases c with
    | false => rfl
    | true => exact absurd h (by decide)
  | true => cases c with
    | false => exact absurd h (by decide)
    | true => rfl

mutual

/-- Reading the prefix code back: a value and the rest of the text. -/
theorem unaryText_append_inj : ∀ (v w : PyVal) (r r' : PyStr),
    unaryText v ++ r = unaryText w ++ r' → v = w ∧ r = r'
  | v, w, r, r', h => by
      -- The tags agree, so the values are of one kind, and the bodies decide.
      rcases tag_body_of_append v w r r' h with ⟨htag, hbody⟩
      cases v with
      | none =>
          cases w <;> first | exact ⟨rfl, hbody⟩ | exact absurd htag (by simp only [tag]; decide)
      | bool b =>
          cases w with
          | bool c =>
              rcases unary_append_inj _ _ _ _ hbody with ⟨hbc, hr⟩
              exact ⟨by rw [bool_of_toNat b c hbc], hr⟩
          | _ => exact absurd htag (by simp only [tag]; decide)
      | int n =>
          cases w with
          | int m =>
              rcases unaryInt_append_inj _ _ _ _ hbody with ⟨hnm, hr⟩
              exact ⟨by rw [hnm], hr⟩
          | _ => exact absurd htag (by simp only [tag]; decide)
      | float q =>
          cases w with
          | float p =>
              simp only [body, List.append_assoc] at hbody
              rcases unaryInt_append_inj _ _ _ _ hbody with ⟨hnum, hrest⟩
              rcases unary_append_inj _ _ _ _ hrest with ⟨hden, hr⟩
              exact ⟨by rw [Rat.ext hnum hden], hr⟩
          | _ => exact absurd htag (by simp only [tag]; decide)
      | str s =>
          cases w with
          | str t =>
              rcases unaryStr_append_inj _ _ _ _ hbody with ⟨hst, hr⟩
              exact ⟨by rw [hst], hr⟩
          | _ => exact absurd htag (by simp only [tag]; decide)
      | list xs =>
          cases w with
          | list ys =>
              rcases unaryTextList_append_inj xs ys r r' hbody with ⟨hxy, hr⟩
              exact ⟨by rw [hxy], hr⟩
          | _ => exact absurd htag (by simp only [tag]; decide)
      | dict kvs =>
          cases w with
          | dict lvs =>
              rcases unaryTextItems_append_inj kvs lvs r r' hbody with ⟨hkl, hr⟩
              exact ⟨by rw [hkl], hr⟩
          | _ => exact absurd htag (by simp only [tag]; decide)

theorem unaryTextList_append_inj : ∀ (xs ys : List PyVal) (r r' : PyStr),
    unaryTextList xs ++ r = unaryTextList ys ++ r' → xs = ys ∧ r = r'
  | [], [], _, _, h => ⟨rfl, (unary_append_inj _ _ _ _ h).2⟩
  | [], _ :: _, _, _, h => by
      simp only [unaryTextList, List.append_assoc] at h
      exact absurd (unary_append_inj _ _ _ _ h).1 (by decide)
  | _ :: _, [], _, _, h => by
      simp only [unaryTextList, List.append_assoc] at h
      exact absurd (unary_append_inj _ _ _ _ h).1 (by decide)
  | x :: xs, y :: ys, r, r', h => by
      simp only [unaryTextList, List.append_assoc] at h
      rcases unaryText_append_inj x y _ _ (unary_append_inj _ _ _ _ h).2 with ⟨hxy, hrest⟩
      rcases unaryTextList_append_inj xs ys r r' hrest with ⟨hs, hr⟩
      exact ⟨by rw [hxy, hs], hr⟩

theorem unaryTextItems_append_inj : ∀ (xs ys : List (PyStr × PyVal)) (r r' : PyStr),
    unaryTextItems xs ++ r = unaryTextItems ys ++ r' → xs = ys ∧ r = r'
  | [], [], _, _, h => ⟨rfl, (unary_append_inj _ _ _ _ h).2⟩
  | [], (_, _) :: _, _, _, h => by
      simp only [unaryTextItems, List.append_assoc] at h
      exact absurd (unary_append_inj _ _ _ _ h).1 (by decide)
  | (_, _) :: _, [], _, _, h => by
      simp only [unaryTextItems, List.append_assoc] at h
      exact absurd (unary_append_inj _ _ _ _ h).1 (by decide)
  | (k, x) :: xs, (l, y) :: ys, r, r', h => by
      simp only [unaryTextItems, List.append_assoc] at h
      rcases unaryStr_append_inj k l _ _ (unary_append_inj _ _ _ _ h).2 with ⟨hkl, hval⟩
      rcases unaryText_append_inj x y _ _ hval with ⟨hxy, hrest⟩
      rcases unaryTextItems_append_inj xs ys r r' hrest with ⟨hs, hr⟩
      exact ⟨by rw [hkl, hxy, hs], hr⟩

end

/-! ## The instance -/

/-- Pad with zeros, and cut, to 32 bytes. -/
def fit (b : Bytes) : Bytes := (b ++ List.replicate 32 0).take 32

theorem fit_length (b : Bytes) : (fit b).length = 32 := by
  rw [fit, List.length_take, List.length_append, List.length_replicate]
  omega

/-- A byte as a code point. -/
def ofByte (c : UInt8) : CodePoint := Fin.ofNat 0x110000 c.toNat

theorem ofNat_ofByte (c : UInt8) : UInt8.ofNat (ofByte c).val = c := by
  have hlt := c.toNat_lt
  have hval : (ofByte c).val = c.toNat := Nat.mod_eq_of_lt (by omega)
  rw [hval, UInt8.ofNat_toNat]

open Classical in
/-- The inverse of the prefix code. -/
noncomputable def loadsUnary (s : PyStr) : Except PyErr PyVal :=
  if h : ∃ v, unaryText v = s then .ok h.choose else .error .valueError

theorem loadsUnary_unaryText (v : PyVal) : loadsUnary (unaryText v) = .ok v := by
  have hex : ∃ w, unaryText w = unaryText v := ⟨v, rfl⟩
  rw [loadsUnary, dif_pos hex, Except.ok.injEq]
  exact (unaryText_append_inj _ _ [] [] (by rw [hex.choose_spec])).1

theorem xor_comm_zip (a b : Bytes) :
    List.zipWith (· ^^^ ·) a b = List.zipWith (· ^^^ ·) b a := by
  rw [List.zipWith_comm]
  simp only [UInt8.xor_comm]

end Reference

open Reference in
/-- Primitives that satisfy the laws. -/
noncomputable def reference : Primitives where
  dumps := unaryText
  loads := loadsUnary
  b64encode := fun b => b.map ofByte
  b64decode := fun v => match v with
    | .str s => .ok (s.map (fun c => UInt8.ofNat c.val))
    | _ => .error .typeError
  edPublic := fun k => 1 :: k
  edSign := fun k d => 1 :: k ++ d
  edVerify := fun pub sig d => if sig = pub ++ d then .ok () else .error .valueError
  xPublic := fit
  exchange := fun a pub => .ok (List.zipWith (· ^^^ ·) (fit a) pub)
  hkdf := fun _ k => fit k
  aesEncrypt := fun k n d => .ok (k ++ n ++ d)
  aesDecrypt := fun k n c =>
    if (k ++ n).isPrefixOf c then .ok (c.drop (k ++ n).length) else .error .valueError

namespace Reference

theorem b64_ascii (b : Bytes) : (reference.b64encode b).any isSurrogate = false := by
  rw [List.any_eq_false]
  intro c hc
  rcases List.mem_map.mp hc with ⟨x, _, rfl⟩
  have hx := x.toNat_lt
  have hval : (ofByte x).val = x.toNat := Nat.mod_eq_of_lt (by omega)
  simp only [isSurrogate, hval, Bool.decide_and, Bool.and_eq_true, decide_eq_true_eq]
  omega

theorem unary_ascii (n : Nat) : (unary n).any isSurrogate = false := by
  rw [unary, List.any_append, Bool.or_eq_false_iff]
  constructor
  · rw [List.any_eq_false]
    intro c hc
    rw [List.eq_of_mem_replicate hc]
    decide
  · decide

theorem unaryInt_ascii (n : Int) : (unaryInt n).any isSurrogate = false := by
  rw [unaryInt, List.any_append, unary_ascii, unary_ascii]
  rfl

theorem unaryStr_ascii (s : PyStr) : (unaryStr s).any isSurrogate = false := by
  induction s with
  | nil => exact unary_ascii 0
  | cons c s ih =>
      rw [unaryStr, List.any_append, List.any_append, unary_ascii, unary_ascii, ih]
      rfl

mutual

theorem unaryText_ascii : ∀ v : PyVal, (unaryText v).any isSurrogate = false
  | .none => unary_ascii 0
  | .bool b => by rw [unaryText, List.any_append, unary_ascii, unary_ascii]; rfl
  | .int n => by rw [unaryText, List.any_append, unary_ascii, unaryInt_ascii]; rfl
  | .float q => by
      rw [unaryText, List.any_append, List.any_append, unary_ascii, unary_ascii, unaryInt_ascii]
      rfl
  | .str s => by rw [unaryText, List.any_append, unary_ascii, unaryStr_ascii]; rfl
  | .list xs => by rw [unaryText, List.any_append, unary_ascii, unaryTextList_ascii xs]; rfl
  | .dict kvs => by rw [unaryText, List.any_append, unary_ascii, unaryTextItems_ascii kvs]; rfl

theorem unaryTextList_ascii : ∀ xs : List PyVal, (unaryTextList xs).any isSurrogate = false
  | [] => unary_ascii 0
  | x :: xs => by
      rw [unaryTextList, List.any_append, List.any_append, unary_ascii, unaryText_ascii x,
        unaryTextList_ascii xs]
      rfl

theorem unaryTextItems_ascii : ∀ kvs : List (PyStr × PyVal),
    (unaryTextItems kvs).any isSurrogate = false
  | [] => unary_ascii 0
  | (k, x) :: kvs => by
      rw [unaryTextItems, List.any_append, List.any_append, List.any_append, unary_ascii,
        unaryStr_ascii, unaryText_ascii x, unaryTextItems_ascii kvs]
      rfl

end

end Reference

open Reference in
/-- The laws are satisfiable. -/
theorem reference_lawful : reference.Lawful where
  loads_dumps := fun v _ => loadsUnary_unaryText v
  dumps_ascii := unaryText_ascii
  b64 := fun b => by
    simp only [reference, List.map_map]
    have hid : (fun c : CodePoint => UInt8.ofNat c.val) ∘ ofByte = id := by
      funext c
      exact ofNat_ofByte c
    rw [hid, List.map_id]
  b64_ascii := b64_ascii
  b64_nonempty := fun b hb hc => hb (List.map_eq_nil_iff.mp hc)
  edPublic_nonempty := fun k => by simp only [reference, ne_eq, reduceCtorEq, not_false_eq_true]
  edSign_nonempty := fun k d => by
    simp only [reference, ne_eq, reduceCtorEq, not_false_eq_true, List.cons_append]
  edVerify_edSign := fun k d d' => by
    simp only [reference]
    constructor
    · intro h
      by_cases hc : 1 :: k ++ d = 1 :: k ++ d'
      · exact (List.append_cancel_left hc).symm
      · rw [if_neg hc] at h
        exact absurd h (by simp only [reduceCtorEq, not_false_eq_true])
    · intro h
      rw [h, if_pos rfl]
  xPublic_length := fit_length
  hkdf_length := fun _ k => fit_length k
  exchange_comm := fun a b => ⟨_, rfl, by
    simp only [reference]
    rw [xor_comm_zip]⟩
  aes := fun k n d _ _ => ⟨k ++ n ++ d, rfl, by
    -- A ciphertext is the key, the nonce and the text, in this order.
    have hpre : (k ++ n).isPrefixOf (k ++ n ++ d) = true :=
      List.isPrefixOf_iff_prefix.mpr (List.prefix_append _ _)
    simp only [reference]
    rw [if_pos hpre, List.drop_left]⟩

end WhisperNet
