import WhisperNet.Crypto.Ciphers
import WhisperNet.Crypto.Recovery

/-!
# Opening Encrypted Payloads

What comes out of the two ciphers is what went in. A payload sealed to one key
opens with the private key to it. A payload sealed under a threshold opens with
any `t` or more of its shares, and the share a node reads out of it is one of
the shares of the split, in the place of the node's key.

Both facts need nothing of the keys but that the encryption accepted them: a
text the encryption accepts is hexadecimal, so the sealed payload is a wire
value and reads back.

## Main definitions

* `Sealed`: The parts of a sealed threshold payload.

## Theorems

* `decrypt_encrypt`: One recipient opens the payload.
* `encrypt_sealed`: What a threshold encryption consists of.
* `loads_sealed`: A sealed payload reads back.
* `decryptOwnShare_sealed`: A node opens the share addressed to it, and that is
  the share of the split in the place of its key.
* `reconstruct_sealed`: Enough shares open the payload.
-/

namespace WhisperNet

theorem publicKeyOfHex_hex (P : Primitives) (hP : P.Lawful) (k : Bytes) :
    publicKeyOfHex (.str (hex (P.xPublic k))) = .ok (P.xPublic k) := by
  have hhex : fromhexVal (.str (hex (P.xPublic k))) = .ok (P.xPublic k) := fromhex_hex _
  unfold publicKeyOfHex
  rw [hhex]
  exact if_pos (hP.xPublic_length k)

/-- A key the encryption accepts is hexadecimal text. -/
theorem wire_of_publicKeyOfHex {v : PyVal} {pub : Bytes} (h : publicKeyOfHex v = .ok pub) :
    Wire v := by
  unfold publicKeyOfHex at h
  cases v with
  | str s =>
      cases hs : fromhexVal (.str s) with
      | error e =>
          rw [hs] at h
          simp only [reduceCtorEq] at h
      | ok b => exact hasPair_of_ascii s (fromhex_ascii s b hs)
  | none => trivial
  | bool b => trivial
  | int n => trivial
  | float q => trivial
  | list xs => exact (nomatch h)
  | dict kvs => exact (nomatch h)

theorem startsWith_append (marker s : PyStr) : startsWith (marker ++ s) marker = true :=
  List.isPrefixOf_iff_prefix.mpr (List.prefix_append marker s)

namespace PayloadCipher

/-- The holder of the private key opens the payload. -/
theorem decrypt_encrypt (P : Primitives) (hP : P.Lawful) {rand : Rand} {target : PyVal}
    {plaintext sealed : PyStr} (h : encrypt P rand target plaintext = .ok sealed) {k : Bytes}
    (hk : publicKeyOfHex target = .ok (P.xPublic k)) :
    startsWith sealed payloadMarker = true ∧ decrypt P ⟨some k⟩ sealed = .ok plaintext := by
  rcases hP.exchange_comm rand.eph k with ⟨shared, hsend, hrecv⟩
  rcases bind_eq_ok.mp h with ⟨pub, hpub, h⟩
  rw [hk, Except.ok.injEq] at hpub
  rw [← hpub] at h
  rcases bind_eq_ok.mp h with ⟨s, hs, h⟩
  rw [hsend, Except.ok.injEq] at hs
  rw [← hs] at h
  rcases bind_eq_ok.mp h with ⟨data, hdata, h⟩
  rcases bind_eq_ok.mp h with ⟨ct, hct, h⟩
  have hsealed := Except.ok.inj h
  rcases hP.aes (P.hkdf (lit "whisper-payload") shared) rand.nonce.bytes data
    (hP.hkdf_length _ _) rand.nonce.length_eq with ⟨ct', hct', hopen⟩
  rw [hct', Except.ok.injEq] at hct
  rw [hct] at hopen
  -- The three parts are cut where their lengths say.
  have hpubLen := hP.xPublic_length rand.eph
  have hhead : (P.xPublic rand.eph ++ rand.nonce.bytes ++ ct).take 32 = P.xPublic rand.eph := by
    rw [List.append_assoc, ← hpubLen, List.take_left]
  have hmid : ((P.xPublic rand.eph ++ rand.nonce.bytes ++ ct).drop 32).take 12 =
      rand.nonce.bytes := by
    rw [List.append_assoc, ← hpubLen, List.drop_left, ← rand.nonce.length_eq, List.take_left]
  have htail : (P.xPublic rand.eph ++ rand.nonce.bytes ++ ct).drop 44 = ct := by
    have hlen : (P.xPublic rand.eph ++ rand.nonce.bytes).length = 44 := by
      rw [List.length_append, hpubLen, rand.nonce.length_eq]
    rw [← hlen, List.drop_left]
  rw [← hsealed]
  refine ⟨startsWith_append _ _, ?_⟩
  unfold decrypt
  rw [startsWith_append, List.drop_left, hP.b64]
  simp only [Bool.not_true, Bool.false_eq_true, if_false]
  change (P.exchange k ((P.xPublic rand.eph ++ rand.nonce.bytes ++ ct).take 32)).bind _ = _
  rw [hhead, hrecv]
  change (P.aesDecrypt (P.hkdf (lit "whisper-payload") shared) _ _).bind _ = _
  rw [hmid, htail, hopen]
  exact decode_encode plaintext data hdata

end PayloadCipher

namespace ThresholdCipher

/-- The parts of a sealed payload: the data and its ciphertext, and the entries
    of the shares. -/
structure Sealed (P : Primitives) (rand : Rand) (keys : List PyVal) (plaintext : PyStr) (t : Nat)
    (data ct : Bytes) (entries : List PyVal) : Prop where
  encoded : encode plaintext = .ok data
  opens : P.aesDecrypt rand.aesKey rand.nonce.bytes ct = .ok data
  entries : ((shamirSplit rand.aesKey keys.length t rand.coeffs).zip keys).zipIdx.mapM
    (fun e => shareEntry P (rand.share e.2) e.1.1 e.1.2) = .ok entries

/-- The decoded content of a sealed payload. -/
def blob (P : Primitives) (rand : Rand) (keys : List PyVal) (t : Nat) (ct : Bytes)
    (entries : List PyVal) : Msg :=
  [(lit "t", .int t), (lit "n", .int keys.length),
   (lit "ciphertext", .str (P.b64encode (rand.nonce.bytes ++ ct))),
   (lit "shares", .list entries)]

/-- What a threshold encryption that succeeds consists of. -/
theorem encrypt_parts (P : Primitives) (hP : P.Lawful) {rand : Rand} {keys : List PyVal}
    {plaintext sealed : PyStr} {t : Nat} (h : encrypt P rand keys plaintext t = .ok sealed) :
    ∃ data ct entries, Sealed P rand keys plaintext t data ct entries ∧
      P.aesEncrypt rand.aesKey rand.nonce.bytes data = .ok ct ∧
      sealed = thresholdMarker ++ P.dumps (.dict (blob P rand keys t ct entries)) := by
  rcases bind_eq_ok.mp h with ⟨data, hdata, h⟩
  rcases bind_eq_ok.mp h with ⟨ct, hct, h⟩
  rcases bind_eq_ok.mp h with ⟨entries, hentries, h⟩
  rcases hP.aes rand.aesKey rand.nonce.bytes data rand.aesKey_length rand.nonce.length_eq with
    ⟨ct', hct', hopen⟩
  have hsame : ct' = ct := by
    rw [hct', Except.ok.injEq] at hct
    exact hct
  rw [hsame] at hopen
  exact ⟨data, ct, entries, ⟨hdata, hopen, hentries⟩, hct, (Except.ok.inj h).symm⟩

theorem encrypt_sealed (P : Primitives) (hP : P.Lawful) {rand : Rand} {keys : List PyVal}
    {plaintext sealed : PyStr} {t : Nat} (h : encrypt P rand keys plaintext t = .ok sealed) :
    ∃ data ct entries, Sealed P rand keys plaintext t data ct entries ∧
      sealed = thresholdMarker ++ P.dumps (.dict (blob P rand keys t ct entries)) := by
  rcases encrypt_parts P hP h with ⟨data, ct, entries, hsealed, _, heq⟩
  exact ⟨data, ct, entries, hsealed, heq⟩

/-- The entry of a share. -/
def entryOf (P : Primitives) (rand : PayloadCipher.Rand) (share : Share) (key : PyVal)
    (ct : Bytes) : Msg :=
  [(lit "x", .int share.1), (lit "node_pubkey", key),
   (lit "eph_pub", .str (P.b64encode (P.xPublic rand.eph))),
   (lit "enc_share", .str (P.b64encode (rand.nonce.bytes ++ ct)))]

theorem shareEntry_eq {P : Primitives} {rand : PayloadCipher.Rand} {share : Share} {key v : PyVal}
    (h : shareEntry P rand share key = .ok v) :
    ∃ pub shared ct, publicKeyOfHex key = .ok pub ∧ P.exchange rand.eph pub = .ok shared ∧
      P.aesEncrypt (P.hkdf (lit "whisper-tshare") shared) rand.nonce.bytes share.2 = .ok ct ∧
      v = .dict (entryOf P rand share key ct) := by
  rcases bind_eq_ok.mp h with ⟨pub, hpub, h⟩
  rcases bind_eq_ok.mp h with ⟨shared, hshared, h⟩
  rcases bind_eq_ok.mp h with ⟨ct, hct, h⟩
  exact ⟨pub, shared, ct, hpub, hshared, hct, (Except.ok.inj h).symm⟩

/-- Each result of a successful `mapM` belongs to an argument. -/
theorem mem_of_mapM {α β : Type} {f : α → Except PyErr β} {xs : List α} {ys : List β}
    (h : xs.mapM f = .ok ys) : ∀ y ∈ ys, ∃ x ∈ xs, f x = .ok y := by
  induction xs generalizing ys with
  | nil =>
      rw [List.mapM_nil] at h
      have hys := Except.ok.inj h
      rw [← hys]
      exact fun y hy => (List.not_mem_nil hy).elim
  | cons x xs ih =>
      rw [List.mapM_cons] at h
      rcases bind_eq_ok.mp h with ⟨y, hy, h⟩
      rcases bind_eq_ok.mp h with ⟨rest, hrest, h⟩
      have hys := Except.ok.inj h
      rw [← hys]
      intro z hz
      rcases List.mem_cons.mp hz with hz | hz
      · rw [hz]
        exact ⟨x, List.mem_cons_self .., hy⟩
      · rcases ih hrest z hz with ⟨x', hx', hfx⟩
        exact ⟨x', List.mem_cons_of_mem _ hx', hfx⟩

/-- Each argument of a successful `mapM` has a result. -/
theorem mem_mapM {α β : Type} {f : α → Except PyErr β} {xs : List α} {ys : List β}
    (h : xs.mapM f = .ok ys) : ∀ x ∈ xs, ∃ y ∈ ys, f x = .ok y := by
  induction xs generalizing ys with
  | nil => exact fun x hx => (List.not_mem_nil hx).elim
  | cons x xs ih =>
      rw [List.mapM_cons] at h
      rcases bind_eq_ok.mp h with ⟨y, hy, h⟩
      rcases bind_eq_ok.mp h with ⟨rest, hrest, h⟩
      have hys := Except.ok.inj h
      rw [← hys]
      intro z hz
      rcases List.mem_cons.mp hz with hz | hz
      · rw [hz]
        exact ⟨y, List.mem_cons_self .., hy⟩
      · rcases ih hrest z hz with ⟨y', hy', hfx⟩
        exact ⟨y', List.mem_cons_of_mem _ hy', hfx⟩

section Reading

variable {P : Primitives} {rand : Rand} {keys : List PyVal} {plaintext : PyStr} {t : Nat}
  {data ct : Bytes} {entries : List PyVal}

/-- An entry of a sealed payload is the one of a share and the key in its place. -/
theorem entry_of_mem (h : Sealed P rand keys plaintext t data ct entries) :
    ∀ v ∈ entries, ∃ (i : Nat) (share : Share) (key : PyVal),
      (shamirSplit rand.aesKey keys.length t rand.coeffs)[i]? = some share ∧
        keys[i]? = some key ∧ shareEntry P (rand.share i) share key = .ok v := by
  intro v hv
  rcases mem_of_mapM h.entries v hv with ⟨e, he, hentry⟩
  have hplace := List.getElem?_zip_eq_some.mp (List.mem_zipIdx_iff_getElem?.mp he)
  exact ⟨e.2, e.1.1, e.1.2, hplace.1, hplace.2, hentry⟩

theorem wire_list (xs : List PyVal) (h : ∀ v ∈ xs, Wire v) : WireList xs := by
  induction xs with
  | nil => trivial
  | cons v xs ih =>
      exact ⟨h v (List.mem_cons_self ..), ih (fun w hw => h w (List.mem_cons_of_mem _ hw))⟩

/-- A sealed payload is a wire value, and reads back. -/
theorem loads_sealed (hP : P.Lawful) (h : Sealed P rand keys plaintext t data ct entries) :
    P.loads ((thresholdMarker ++ P.dumps (.dict (blob P rand keys t ct entries))).drop
      thresholdMarker.length) = .ok (.dict (blob P rand keys t ct entries)) := by
  have hb64 : ∀ b, Wire (.str (P.b64encode b)) := fun b => hasPair_of_ascii _ (hP.b64_ascii b)
  have hentries : WireList entries := by
    refine wire_list entries (fun v hv => ?_)
    rcases entry_of_mem h v hv with ⟨i, share, key, _, _, hentry⟩
    rcases shareEntry_eq hentry with ⟨pub, shared, ct', hpub, _, _, hv⟩
    rw [hv]
    have hnames :
        ([lit "x", lit "node_pubkey", lit "eph_pub", lit "enc_share"] : List PyStr).Nodup := by
      decide
    exact ⟨hnames, by decide, trivial, by decide, wire_of_publicKeyOfHex hpub, by decide,
      hb64 _, by decide, hb64 _, trivial⟩
  have hnames : ([lit "t", lit "n", lit "ciphertext", lit "shares"] : List PyStr).Nodup := by decide
  rw [List.drop_left, hP.loads_dumps]
  exact ⟨hnames, by decide, trivial, by decide, trivial, by decide, hb64 _, by decide, hentries,
    trivial⟩

/-- The search for a key finds an entry for it, if there is one. -/
theorem findEntry_cases (own : PyStr) (vs : List PyVal)
    (h : ∀ v ∈ vs, ∃ entry key, v = .dict entry ∧ lookup (lit "node_pubkey") entry = some key) :
    (findEntry own vs = .ok none ∧
        ∀ entry, .dict entry ∈ vs → lookup (lit "node_pubkey") entry ≠ some (.str own)) ∨
      ∃ entry, findEntry own vs = .ok (some entry) ∧ .dict entry ∈ vs ∧
        lookup (lit "node_pubkey") entry = some (.str own) := by
  induction vs with
  | nil => exact Or.inl ⟨rfl, fun entry he => (List.not_mem_nil he).elim⟩
  | cons v vs ih =>
      rcases h v (List.mem_cons_self ..) with ⟨entry, key, hv, hkey⟩
      rw [hv]
      by_cases hown : pyEq key (.str own) = true
      · refine Or.inr ⟨entry, ?_, List.mem_cons_self .., ?_⟩
        · simp only [findEntry, hkey, if_pos hown]
        · rw [hkey, (pyEq_str key own).mp hown]
      · have hskip : findEntry own (.dict entry :: vs) = findEntry own vs := by
          simp only [findEntry, hkey, if_neg hown]
        rw [hskip]
        rcases ih (fun w hw => h w (List.mem_cons_of_mem _ hw)) with ⟨hnone, hno⟩ | hfound
        · refine Or.inl ⟨hnone, fun entry' he' hc => ?_⟩
          rcases List.mem_cons.mp he' with he' | he'
          · rw [PyVal.dict.inj he', hkey] at hc
            exact hown ((pyEq_str key own).mpr (Option.some.inj hc))
          · exact hno entry' he' hc
        · rcases hfound with ⟨entry', hfind, hmem, hlookup⟩
          exact Or.inr ⟨entry', hfind, List.mem_cons_of_mem _ hmem, hlookup⟩

/-- The holder of the private key opens the entry of a share. -/
theorem openEntry_entryOf (hP : P.Lawful) {r : PayloadCipher.Rand} {share : Share} {priv : Bytes}
    {v : PyVal} (h : shareEntry P r share (.str (hex (P.xPublic priv))) = .ok v) :
    ∃ entry, v = .dict entry ∧ openEntry P priv entry = .ok (.int share.1, share.2) := by
  rcases shareEntry_eq h with ⟨pub, shared, c, hpub, hshared, hc, hv⟩
  rw [publicKeyOfHex_hex P hP, Except.ok.injEq] at hpub
  rcases hP.exchange_comm r.eph priv with ⟨s, hsend, hrecv⟩
  rw [← hpub, hsend, Except.ok.injEq] at hshared
  rcases hP.aes (P.hkdf (lit "whisper-tshare") shared) r.nonce.bytes share.2
    (hP.hkdf_length _ _) r.nonce.length_eq with ⟨c', hc', hopen⟩
  rw [hc', Except.ok.injEq] at hc
  have hhead : (r.nonce.bytes ++ c).take 12 = r.nonce.bytes := by
    rw [← r.nonce.length_eq, List.take_left]
  have htail : (r.nonce.bytes ++ c).drop 12 = c := by
    rw [← r.nonce.length_eq, List.drop_left]
  refine ⟨_, hv, ?_⟩
  have hx : lookup (lit "x") (entryOf P r share (.str (hex (P.xPublic priv))) c) =
      some (.int share.1) := rfl
  have heph : lookup (lit "eph_pub") (entryOf P r share (.str (hex (P.xPublic priv))) c) =
      some (.str (P.b64encode (P.xPublic r.eph))) := rfl
  have hshare : lookup (lit "enc_share") (entryOf P r share (.str (hex (P.xPublic priv))) c) =
      some (.str (P.b64encode (r.nonce.bytes ++ c))) := rfl
  simp only [openEntry, hx, heph, hshare, hP.b64, bind, Except.bind, hrecv, hshared, hhead, htail]
  rw [← hc, hopen]
  rfl

/-- Every key that was sealed to has its entry. -/
theorem entry_of_key (h : Sealed P rand keys plaintext t data ct entries) {key : PyVal}
    (hkey : key ∈ keys) :
    ∃ entry, .dict entry ∈ entries ∧ lookup (lit "node_pubkey") entry = some key := by
  rcases List.mem_iff_getElem?.mp hkey with ⟨i, hi⟩
  have hlen : (shamirSplit rand.aesKey keys.length t rand.coeffs).length = keys.length := by
    rw [shamirSplit, List.length_map, List.length_range]
  have hlt : i < (shamirSplit rand.aesKey keys.length t rand.coeffs).length := by
    rw [hlen]
    exact (List.getElem?_eq_some_iff.mp hi).1
  have hzip : ((shamirSplit rand.aesKey keys.length t rand.coeffs).zip keys)[i]? =
      some ((shamirSplit rand.aesKey keys.length t rand.coeffs)[i], key) :=
    List.getElem?_zip_eq_some.mpr ⟨List.getElem?_eq_getElem hlt, hi⟩
  have hnumbered : (((shamirSplit rand.aesKey keys.length t rand.coeffs)[i], key), i) ∈
      ((shamirSplit rand.aesKey keys.length t rand.coeffs).zip keys).zipIdx :=
    List.mem_zipIdx_iff_getElem?.mpr hzip
  rcases mem_mapM h.entries _ hnumbered with ⟨v, hv, hentry⟩
  rcases shareEntry_eq hentry with ⟨_, _, c, _, _, _, hveq⟩
  rw [hveq] at hv
  exact ⟨_, hv, rfl⟩

/-- What a node reads out of a sealed payload: nothing if no share is addressed
    to it, and otherwise the share of the split in the place of its key. -/
theorem decryptOwnShare_sealed (hP : P.Lawful)
    (h : Sealed P rand keys plaintext t data ct entries) (c : PayloadCipher) :
    (decryptOwnShare P c (thresholdMarker ++ P.dumps (.dict (blob P rand keys t ct entries))) =
        .ok none ∧ ∀ own, c.pubkeyHex P = some own → .str own ∉ keys) ∨
      ∃ (i : Nat) (own : PyStr) (share : Share), c.pubkeyHex P = some own ∧
        keys[i]? = some (.str own) ∧
        (shamirSplit rand.aesKey keys.length t rand.coeffs)[i]? = some share ∧
        decryptOwnShare P c (thresholdMarker ++ P.dumps (.dict (blob P rand keys t ct entries))) =
          .ok (some (.int share.1, share.2)) := by
  cases hpriv : c.privateKey with
  | none =>
      left
      unfold decryptOwnShare PayloadCipher.pubkeyHex
      rw [hpriv]
      exact ⟨rfl, fun own hown => by cases hown⟩
  | some priv =>
      have hshares : lookup (lit "shares") (blob P rand keys t ct entries) = some (.list entries) :=
        rfl
      have hfields : ∀ v ∈ entries, ∃ entry key, v = .dict entry ∧
          lookup (lit "node_pubkey") entry = some key := by
        intro v hv
        rcases entry_of_mem h v hv with ⟨i, share, key, _, _, hentry⟩
        rcases shareEntry_eq hentry with ⟨_, _, c', _, _, _, hv⟩
        exact ⟨_, key, hv, rfl⟩
      have hread_none : findEntry (hex (P.xPublic priv)) entries = .ok none →
          decryptOwnShare P c
            (thresholdMarker ++ P.dumps (.dict (blob P rand keys t ct entries))) = .ok none := by
        intro hfind
        unfold decryptOwnShare
        simp only [hpriv, loads_sealed hP h, hshares, Option.getD_some, hfind]
      have hread_some : ∀ {entry s}, findEntry (hex (P.xPublic priv)) entries = .ok (some entry) →
          openEntry P priv entry = .ok s → decryptOwnShare P c
            (thresholdMarker ++ P.dumps (.dict (blob P rand keys t ct entries))) =
              .ok (some s) := by
        intro entry s hfind hopen
        unfold decryptOwnShare
        simp only [hpriv, loads_sealed hP h, hshares, Option.getD_some, hfind, hopen]
      rcases findEntry_cases (hex (P.xPublic priv)) entries hfields with
        ⟨hnone, hno⟩ | ⟨entry, hfind, hmem, hlookup⟩
      · left
        refine ⟨hread_none hnone, fun own hown hkey => ?_⟩
        unfold PayloadCipher.pubkeyHex at hown
        rw [hpriv, Option.map_some, Option.some.injEq] at hown
        -- The key has a share, and its entry would have been found.
        rcases entry_of_key h hkey with ⟨entry, hmem, hlookup⟩
        exact hno entry hmem (by rw [hlookup, hown])
      · right
        rcases entry_of_mem h _ hmem with ⟨i, share, key, hshare, hplace, hentry⟩
        rcases shareEntry_eq hentry with ⟨_, _, c', _, _, _, hveq⟩
        have hkey : key = .str (hex (P.xPublic priv)) := by
          have hfield : lookup (lit "node_pubkey") entry = some key := by
            rw [PyVal.dict.inj hveq]
            rfl
          rw [hfield, Option.some.injEq] at hlookup
          exact hlookup
        rw [hkey] at hentry hplace
        rcases openEntry_entryOf hP hentry with ⟨entry', hentry', hopen⟩
        rw [← PyVal.dict.inj hentry'] at hopen
        refine ⟨i, hex (P.xPublic priv), share, ?_, hplace, hshare, hread_some hfind hopen⟩
        rw [PayloadCipher.pubkeyHex, hpriv, Option.map_some]

/-- Opening a sealed payload with shares: the key they give back is tried on the
    ciphertext. -/
theorem reconstructAndDecrypt_sealed (hP : P.Lawful)
    (h : Sealed P rand keys plaintext t data ct entries) (shares : List Share) :
    reconstructAndDecrypt P (thresholdMarker ++ P.dumps (.dict (blob P rand keys t ct entries)))
      shares = (shamirReconstruct shares).bind
        (fun key => (P.aesDecrypt key rand.nonce.bytes ct).bind decode) := by
  have hct : lookup (lit "ciphertext") (blob P rand keys t ct entries) =
      some (.str (P.b64encode (rand.nonce.bytes ++ ct))) := rfl
  have hhead : (rand.nonce.bytes ++ ct).take 12 = rand.nonce.bytes := by
    rw [← rand.nonce.length_eq, List.take_left]
  have htail : (rand.nonce.bytes ++ ct).drop 12 = ct := by
    rw [← rand.nonce.length_eq, List.drop_left]
  simp only [reconstructAndDecrypt, loads_sealed hP h, hct, hP.b64, bind, Except.bind, hhead, htail]

/-- Enough shares of the split open the payload. -/
theorem reconstruct_sealed (hP : P.Lawful)
    (h : Sealed P rand keys plaintext t data ct entries) (ht : 1 ≤ t) (hn : keys.length ≤ 255)
    (shares : List Share)
    (hmem : ∀ e ∈ shares, e ∈ shamirSplit rand.aesKey keys.length t rand.coeffs)
    (hnd : (shares.map Prod.fst).Nodup) (hk : t ≤ shares.length) :
    reconstructAndDecrypt P (thresholdMarker ++ P.dumps (.dict (blob P rand keys t ct entries)))
      shares = .ok plaintext := by
  have hne : shares ≠ [] := by
    intro hnil
    rw [hnil, List.length_nil] at hk
    omega
  have hkey : shamirReconstruct shares = .ok rand.aesKey :=
    reconstruct_of_holds (mem_split hn hmem) hnd hne (length_secretPolys ..)
      (secretPolys_spec rand.aesKey rand.coeffs ht hk)
  rw [reconstructAndDecrypt_sealed hP h, hkey, Except.bind, h.opens, Except.bind]
  exact decode_encode plaintext data h.encoded

end Reading

end ThresholdCipher

end WhisperNet
