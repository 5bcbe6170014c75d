import Dockerset.WebauthnData.Cbor

/-!
# The decoder accepts exactly the items

Soundness: what the decoder accepts from an offset on is the encoding of a
well-formed item, by induction over the levels of nesting. Completeness: such an
encoding is accepted wherever it stands. Both go through the two ways in which
`_parseItem` continues after the first byte, `parseItem_special` and `parseItem_head`,
and their converse `parseItem_cases`.
-/

namespace Dockerset.WebauthnData.Cbor
open Go PhpLang Data Logic

/-! ## The first byte and the argument -/

section

variable {buf : Bytes} {offset offset' val : Nat}

/-- A small argument stands in the first byte. -/
theorem parseExtraLength_of_lt (h : val < 24) :
    parseExtraLength val buf offset = .ok (val, offset) := by
  unfold parseExtraLength
  split
  all_goals first | rfl | omega

/-- The argument is read as it was written. -/
theorem parseExtraLength_code (a : Arg) (h : Window buf offset a.extra) :
    parseExtraLength a.code buf offset = .ok (a.value, offset + a.extra.length) := by
  obtain ⟨width, value, fits⟩ := a
  rw [Arg.length_extra]
  have hread : value < 256 ^ width.bytes →
      ByteBuffer.unpackAt width.bytes buf offset = .ok value := by
    intro hlt
    exact ByteBuffer.unpackAt_ok_iff.2 ⟨h, hlt⟩
  cases width with
  | zero => exact parseExtraLength_of_lt fits
  | one =>
    have hval : ByteBuffer.getByteVal buf offset = .ok value := hread fits
    change (do return (← ByteBuffer.getByteVal buf offset, offset + 1) : Except Stop _) = _
    rw [hval]
    rfl
  | two =>
    have hval : ByteBuffer.getUint16Val buf offset = .ok value := hread fits
    change (do return (← ByteBuffer.getUint16Val buf offset, offset + 2) : Except Stop _) = _
    rw [hval]
    rfl
  | four =>
    have hfits : value < 2 ^ 32 := fits
    have hval : ByteBuffer.getUint32Val buf offset = .ok value :=
      ByteBuffer.inRange_bind_iff.2 ⟨hread fits, by omega⟩
    change (do return (← ByteBuffer.getUint32Val buf offset, offset + 4) : Except Stop _) = _
    rw [hval]
    rfl
  | eight =>
    have hfits : value < 2 ^ 63 := fits
    have hval : ByteBuffer.getUint64Val buf offset = .ok value :=
      ByteBuffer.inRange_bind_iff.2 ⟨hread (by change value < 256 ^ 8; omega), fits⟩
    change (do return (← ByteBuffer.getUint64Val buf offset, offset + 8) : Except Stop _) = _
    rw [hval]
    rfl

theorem parseExtraLength_ok {n : Nat} (hval : val < 32) (hoffset : offset ≤ buf.length)
    (h : parseExtraLength val buf offset = .ok (n, offset')) :
    ∃ a : Arg, a.code = val ∧ a.value = n ∧ Window buf offset a.extra ∧
      offset' = offset + a.extra.length := by
  -- an argument of this width, from the read
  have arg : ∀ (w : Width), n < w.bound → Window buf offset (bigEndian w.bytes n) →
      (∀ fits, (⟨w, n, fits⟩ : Arg).code = val) → offset' = offset + w.bytes →
      ∃ a : Arg, a.code = val ∧ a.value = n ∧ Window buf offset a.extra ∧
        offset' = offset + a.extra.length := by
    intro w fits hread hcode hoffset'
    exact ⟨⟨w, n, fits⟩, hcode fits, rfl, hread, by rw [Arg.length_extra, hoffset']⟩
  have hcases : val < 24 ∨ val = 24 ∨ val = 25 ∨ val = 26 ∨ val = 27 ∨
      val = 28 ∨ val = 29 ∨ val = 30 ∨ val = 31 := by omega
  rcases hcases with hlt | rfl | rfl | rfl | rfl | rfl | rfl | rfl | rfl
  · rw [parseExtraLength_of_lt hlt] at h
    cases h
    exact arg .zero hlt (window_nil hoffset) (fun _ => rfl) rfl
  · obtain ⟨m, hread, hm⟩ := except_bind_ok h
    cases hm
    obtain ⟨hwindow, hlt⟩ := ByteBuffer.unpackAt_ok_iff.1 hread
    exact arg .one hlt hwindow (fun _ => rfl) rfl
  · obtain ⟨m, hread, hm⟩ := except_bind_ok h
    cases hm
    obtain ⟨hwindow, hlt⟩ := ByteBuffer.unpackAt_ok_iff.1 hread
    exact arg .two hlt hwindow (fun _ => rfl) rfl
  · obtain ⟨m, hread, hm⟩ := except_bind_ok h
    cases hm
    obtain ⟨hread, -⟩ := ByteBuffer.inRange_bind_iff.1 hread
    obtain ⟨hwindow, hlt⟩ := ByteBuffer.unpackAt_ok_iff.1 hread
    exact arg .four hlt hwindow (fun _ => rfl) rfl
  · obtain ⟨m, hread, hm⟩ := except_bind_ok h
    cases hm
    obtain ⟨hread, hrange⟩ := ByteBuffer.inRange_bind_iff.1 hread
    obtain ⟨hwindow, -⟩ := ByteBuffer.unpackAt_ok_iff.1 hread
    exact arg .eight hrange hwindow (fun _ => rfl) rfl
  all_goals cases h

theorem parseSimple_code (s : Simple) : parseSimple s.code = .ok s.value := by
  cases s <;> rfl

theorem parseSimple_ok {v : Value} (h : parseSimple val = .ok v) :
    ∃ s : Simple, s.code = val ∧ s.value = v := by
  unfold parseSimple at h
  split at h
  · next hval =>
    cases h
    exact ⟨.no, hval.symm, rfl⟩
  · split at h
    · next hval =>
      cases h
      exact ⟨.yes, hval.symm, rfl⟩
    · split at h
      · next hval =>
        cases h
        exact ⟨.null, hval.symm, rfl⟩
      · cases h

theorem parseFloatSimple_of_lt (h : val < 24) :
    parseFloatSimple val buf offset = (parseSimple val).map fun v => (v, offset) := by
  unfold parseFloatSimple
  split
  all_goals first | omega | skip
  cases parseSimple val <;> rfl

theorem float_ok_iff {f : Nat → Value} {width next : Nat} {v : Value} :
    (do return (← f <$> ByteBuffer.unpackAt width buf offset, next) :
        Except Stop (Value × Nat)) = .ok (v, offset') ↔
      ∃ bits < 256 ^ width, Window buf offset (bigEndian width bits) ∧ v = f bits ∧
        offset' = next := by
  constructor
  · intro h
    cases hread : ByteBuffer.unpackAt width buf offset with
    | error e =>
      rw [hread] at h
      cases h
    | ok bits =>
      rw [hread] at h
      cases h
      obtain ⟨hwindow, hlt⟩ := ByteBuffer.unpackAt_ok_iff.1 hread
      exact ⟨bits, hlt, hwindow, rfl, rfl⟩
  · rintro ⟨bits, hlt, hwindow, rfl, rfl⟩
    rw [ByteBuffer.unpackAt_ok_iff.2 ⟨hwindow, hlt⟩]
    rfl

theorem parseFloatSimple_code (s : Special) (h : Window buf offset s.extra) :
    parseFloatSimple s.code buf offset = .ok (s.value, offset + s.extra.length) := by
  cases s with
  | simple own s =>
    cases own with
    | false =>
      have hsmall : s.code < 24 := by cases s <;> decide
      change parseFloatSimple s.code buf offset = _
      rw [parseFloatSimple_of_lt hsmall, parseSimple_code]
      rfl
    | true =>
      have hval : ByteBuffer.getByteVal buf offset = .ok s.code :=
        ByteBuffer.unpackAt_ok_iff.2 ⟨h, by cases s <;> decide⟩
      change (ByteBuffer.getByteVal buf offset >>= fun val =>
        parseSimple val >>= fun v => pure (v, offset + 1)) = _
      rw [hval]
      change (parseSimple s.code >>= fun v => pure (v, offset + 1)) = _
      rw [parseSimple_code]
      rfl
  | half bits =>
    exact float_ok_iff.2 ⟨bits.toNat, bits.toNat_lt, h, (ByteBuffer.halfFloat_eq _).symm, rfl⟩
  | single bits => exact float_ok_iff.2 ⟨bits.toNat, bits.toNat_lt, h, rfl, rfl⟩
  | double bits => exact float_ok_iff.2 ⟨bits.toNat, bits.toNat_lt, h, rfl, rfl⟩

theorem parseFloatSimple_ok {v : Value} (hval : val < 32) (hoffset : offset ≤ buf.length)
    (h : parseFloatSimple val buf offset = .ok (v, offset')) :
    ∃ s : Special, s.code = val ∧ s.value = v ∧ Window buf offset s.extra ∧
      offset' = offset + s.extra.length := by
  have hcases : val < 24 ∨ val = 24 ∨ val = 25 ∨ val = 26 ∨ val = 27 ∨
      val = 28 ∨ val = 29 ∨ val = 30 ∨ val = 31 := by omega
  rcases hcases with hlt | rfl | rfl | rfl | rfl | rfl | rfl | rfl | rfl
  · rw [parseFloatSimple_of_lt hlt] at h
    cases hsimple : parseSimple val with
    | error e =>
      rw [hsimple] at h
      cases h
    | ok w =>
      rw [hsimple] at h
      cases h
      obtain ⟨s, hcode, hs⟩ := parseSimple_ok hsimple
      exact ⟨.simple false s, hcode, hs, window_nil hoffset, rfl⟩
  · obtain ⟨code, hread, hm⟩ := except_bind_ok h
    obtain ⟨w, hw, hm⟩ := except_bind_ok hm
    cases hm
    obtain ⟨s, hcode, hs⟩ := parseSimple_ok hw
    obtain ⟨hwindow, -⟩ := ByteBuffer.unpackAt_ok_iff.1 hread
    rw [← hcode] at hwindow
    exact ⟨.simple true s, rfl, hs, hwindow, by rw [Special.extra, length_bigEndian]⟩
  · obtain ⟨bits, hbits, hwindow, rfl, rfl⟩ := float_ok_iff.1 h
    have hof : (UInt16.ofNat bits).toNat = bits := UInt16.toNat_ofNat_of_lt hbits
    refine ⟨.half (UInt16.ofNat bits), rfl, ?_, ?_, ?_⟩
    · rw [Special.value, hof, ByteBuffer.halfFloat_eq]
    · rwa [Special.extra, hof]
    · rw [Special.extra, length_bigEndian]
  · obtain ⟨bits, hbits, hwindow, rfl, rfl⟩ := float_ok_iff.1 h
    have hof : (UInt32.ofNat bits).toNat = bits := UInt32.toNat_ofNat_of_lt hbits
    refine ⟨.single (UInt32.ofNat bits), rfl, ?_, ?_, ?_⟩
    · rw [Special.value, hof]
    · rwa [Special.extra, hof]
    · rw [Special.extra, length_bigEndian]
  · obtain ⟨bits, hbits, hwindow, rfl, rfl⟩ := float_ok_iff.1 h
    have hof : (UInt64.ofNat bits).toNat = bits := UInt64.toNat_ofNat_of_lt hbits
    refine ⟨.double (UInt64.ofNat bits), rfl, ?_, ?_, ?_⟩
    · rw [Special.value, hof]
    · rwa [Special.extra, hof]
    · rw [Special.extra, length_bigEndian]
  all_goals cases h

/-! ## One item -/

/-- The first byte, split into major type and the lower five bits. -/
theorem split_first {major code : Nat} (hmajor : major < 8) (hcode : code < 32) :
    (UInt8.ofNat (major * 32 + code)).toNat = major * 32 + code ∧
      (major * 32 + code) >>> 5 = major ∧ (major * 32 + code) &&& 0b11111 = code := by
  have hmask : (major * 32 + code) &&& 0b11111 = (major * 32 + code) % 2 ^ 5 :=
    Nat.and_two_pow_sub_one_eq_mod _ 5
  rw [UInt8.toNat_ofNat', Nat.shiftRight_eq_div_pow, hmask]
  omega

theorem Special.code_lt (s : Special) : s.code < 32 := by
  cases s with
  | simple own s => cases own <;> cases s <;> decide
  | half => exact Nat.lt_of_sub_eq_succ rfl
  | single => exact Nat.lt_of_sub_eq_succ rfl
  | double => exact Nat.lt_of_sub_eq_succ rfl

theorem getByteVal_window {n : Nat} {w : Bytes} (hn : (UInt8.ofNat n).toNat = n)
    (h : Window buf offset (UInt8.ofNat n :: w)) : ByteBuffer.getByteVal buf offset = .ok n := by
  have hbyte : Window buf offset [UInt8.ofNat n] := Window.left (w := [UInt8.ofNat n]) h
  have hlt : n < 256 := by
    rw [← hn]
    exact UInt8.toNat_lt _
  exact ByteBuffer.unpackAt_ok_iff.2 ⟨hbyte, hlt⟩

variable {depth : Nat} {v : Value}

theorem parseItem_special (s : Special) (h : Window buf offset s.head) :
    parseItem buf (depth + 1) offset = .ok (s.value, offset + s.head.length) := by
  obtain ⟨hval, htype, hcode⟩ := split_first (by omega : 7 < 8) s.code_lt
  rw [parseItem, getByteVal_window hval h]
  change (if (7 * 32 + s.code) >>> 5 = 7 then _ else _) = _
  rw [htype, hcode, if_pos rfl, parseFloatSimple_code s h.tail, Special.head, List.length_cons]
  congr 2
  omega

/-- An item of another major type goes on after its argument. -/
theorem parseItem_head (a : Arg) {major : Nat} (hmajor : major < 7)
    (h : Window buf offset (a.head major)) :
    parseItem buf (depth + 1) offset =
      parseItemData (parseItem buf depth) major a.value buf (offset + (a.head major).length) := by
  obtain ⟨hval, htype, hcode⟩ := split_first (by omega : major < 8) a.code_lt
  have hlen : offset + (a.head major).length = offset + 1 + a.extra.length := by
    rw [Arg.head, List.length_cons]
    omega
  rw [parseItem, getByteVal_window hval h]
  change (if (major * 32 + a.code) >>> 5 = 7 then _ else _) = _
  rw [htype, hcode, if_neg (by omega), parseExtraLength_code a h.tail, hlen]
  rfl

/-- How an item can have been read. -/
theorem parseItem_cases (h : parseItem buf (depth + 1) offset = .ok (v, offset')) :
    (∃ s : Special, Window buf offset s.head ∧ v = s.value ∧ offset' = offset + s.head.length) ∨
      ∃ (a : Arg) (major : Nat), major < 7 ∧ Window buf offset (a.head major) ∧
        parseItemData (parseItem buf depth) major a.value buf (offset + (a.head major).length) =
          .ok (v, offset') := by
  obtain ⟨first, hfirst, hrest⟩ := except_bind_ok h
  obtain ⟨hbyte, hlt⟩ := ByteBuffer.unpackAt_ok_iff.1 hfirst
  have hoffset : offset + 1 ≤ buf.length := hbyte.le
  have hmask : first &&& 0b11111 = first % 2 ^ 5 := Nat.and_two_pow_sub_one_eq_mod _ 5
  have hsplit : first = (first >>> 5) * 32 + (first &&& 0b11111) := by
    rw [hmask, Nat.shiftRight_eq_div_pow]
    omega
  have hcodelt : first &&& 0b11111 < 32 := by
    rw [hmask]
    omega
  have htypelt : first >>> 5 < 8 := by
    rw [Nat.shiftRight_eq_div_pow]
    omega
  change (if first >>> 5 = 7 then _ else _) = _ at hrest
  split at hrest
  · next htype =>
    obtain ⟨s, hcode, hvalue, hextra, rfl⟩ := parseFloatSimple_ok hcodelt hoffset hrest
    have hhead : Window buf offset s.head := by
      rw [hsplit, htype, ← hcode] at hbyte
      exact window_append.2 ⟨hbyte, hextra⟩
    refine .inl ⟨s, hhead, hvalue.symm, ?_⟩
    rw [Special.head, List.length_cons]
    omega
  · next htype =>
    obtain ⟨⟨n, next⟩, hread, hdata⟩ := except_bind_ok hrest
    obtain ⟨a, hcode, rfl, hextra, rfl⟩ := parseExtraLength_ok hcodelt hoffset hread
    have hhead : Window buf offset (a.head (first >>> 5)) := by
      rw [hsplit, ← hcode] at hbyte
      exact window_append.2 ⟨hbyte, hextra⟩
    refine .inr ⟨a, first >>> 5, by omega, hhead, ?_⟩
    rw [Arg.head, List.length_cons, Nat.add_comm a.extra.length 1, ← Nat.add_assoc]
    exact hdata

end

/-! ## What is accepted is an item -/

section

variable {buf : Bytes} {offset offset' count : Nat} {v : Value} {arr map : List (Key × Value)}
  {items : List Item}

/-- The bytes from one offset to another are a well-formed item with this value. -/
def Reads (buf : Bytes) (offset : Nat) (v : Value) (offset' : Nat) : Prop :=
  ∃ item : Item, item.WellFormed ∧ item.value = v ∧ Window buf offset item.encode ∧
    offset' = offset + item.encode.length

theorem Reads.le (h : Reads buf offset v offset') : offset ≤ offset' ∧ offset' ≤ buf.length := by
  obtain ⟨item, -, -, hwindow, rfl⟩ := h
  exact ⟨Nat.le_add_right _ _, hwindow.le⟩

/-- The bytes are well-formed items, one after the other. -/
structure ReadsAll (buf : Bytes) (offset : Nat) (items : List Item) (offset' : Nat) : Prop where
  wellFormed : Item.AllWellFormed items
  window : Window buf offset (Item.encodeAll items)
  next : offset' = offset + (Item.encodeAll items).length

theorem readsAll_nil (h : offset ≤ buf.length) : ReadsAll buf offset [] offset :=
  ⟨trivial, window_nil h, rfl⟩

theorem ReadsAll.cons {item : Item} (hitem : item.WellFormed)
    (hwindow : Window buf offset item.encode)
    (h : ReadsAll buf (offset + item.encode.length) items offset') :
    ReadsAll buf offset (item :: items) offset' := by
  refine ⟨⟨hitem, h.wellFormed⟩, window_append.2 ⟨hwindow, h.window⟩, ?_⟩
  rw [h.next, Item.encodeAll, List.length_append, Nat.add_assoc]

variable {parse : Nat → Except Stop (Value × Nat)}
  (hparse : ∀ {offset v offset'}, parse offset = .ok (v, offset') → Reads buf offset v offset')

include hparse

/-- The items that the loop of an array reads. -/
theorem parseArray_ok (hoffset : offset ≤ buf.length)
    (h : parseArray parse count arr offset = .ok (v, offset')) :
    ∃ items, items.length = count ∧ v = .array ((Item.values items).foldl push arr) ∧
      ReadsAll buf offset items offset' := by
  induction count generalizing arr offset with
  | zero =>
    cases h
    exact ⟨[], rfl, rfl, readsAll_nil hoffset⟩
  | succ count ih =>
    obtain ⟨⟨first, next⟩, hfirst, hrest⟩ := except_bind_ok h
    have hreads := hparse hfirst
    obtain ⟨items, hlen, hvalue, hitems⟩ := ih hreads.le.2 hrest
    obtain ⟨item, hitem, rfl, hwindow, rfl⟩ := hreads
    exact ⟨item :: items, congrArg Nat.succ hlen, hvalue, hitems.cons hitem hwindow⟩

/-- The keys and values that the loop of a map reads. -/
theorem parseMap_ok (hoffset : offset ≤ buf.length)
    (h : parseMap parse count map offset = .ok (v, offset')) :
    ∃ entries, entries.length = 2 * count ∧ v = .array (Item.assign map (Item.values entries)) ∧
      Item.KeysOk (Item.values entries) ∧ ReadsAll buf offset entries offset' := by
  induction count generalizing map offset with
  | zero =>
    cases h
    exact ⟨[], rfl, rfl, trivial, readsAll_nil hoffset⟩
  | succ count ih =>
    obtain ⟨⟨key, next⟩, hkey, hrest⟩ := except_bind_ok h
    obtain ⟨⟨val, next'⟩, hval, hrest⟩ := except_bind_ok hrest
    have hval := hparse hval
    dsimp only at hrest
    cases hasKey : key.asKey with
    | none =>
      rw [hasKey] at hrest
      cases hrest
    | some k =>
      rw [hasKey] at hrest
      obtain ⟨entries, hlen, hvalue, hkeys, hentries⟩ := ih hval.le.2 hrest
      obtain ⟨keyItem, hkeyWf, rfl, hkeyWindow, rfl⟩ := hparse hkey
      obtain ⟨valItem, hvalWf, rfl, hvalWindow, rfl⟩ := hval
      refine ⟨keyItem :: valItem :: entries, ?_, ?_, ?_, ?_⟩
      · rw [List.length_cons, List.length_cons, hlen]
        omega
      · rw [hvalue, Item.values, Item.values, Item.assign, hasKey]
        rfl
      · exact ⟨by rw [hasKey]; rfl, hkeys⟩
      · exact (hentries.cons hvalWf hvalWindow).cons hkeyWf hkeyWindow

end

section

variable {buf : Bytes} {offset offset' : Nat} {v : Value}

/-- An item with a head and something behind it. -/
theorem reads_append (item : Item) {hd rest : Bytes} (hitem : item.WellFormed)
    (hencode : item.encode = hd ++ rest) (hvalue : item.value = v) (hhead : Window buf offset hd)
    (hrest : Window buf (offset + hd.length) rest)
    (hnext : offset' = offset + hd.length + rest.length) : Reads buf offset v offset' := by
  refine ⟨item, hitem, hvalue, ?_, ?_⟩
  · rw [hencode]
    exact window_append.2 ⟨hhead, hrest⟩
  · rw [hencode, List.length_append, hnext, Nat.add_assoc]

/-- **Soundness**: what is accepted is an item. -/
theorem parseItem_ok {depth : Nat} (h : parseItem buf depth offset = .ok (v, offset')) :
    Reads buf offset v offset' := by
  induction depth generalizing offset v offset' with
  | zero => cases h
  | succ depth ih =>
    rcases parseItem_cases h with ⟨s, hwindow, rfl, rfl⟩ | ⟨a, major, hmajor, hhead, hdata⟩
    · exact ⟨.special s, trivial, rfl, hwindow, rfl⟩
    · have hle := hhead.le
      have hcases : major = 0 ∨ major = 1 ∨ major = 2 ∨ major = 3 ∨ major = 4 ∨ major = 5 ∨
          major = 6 := by omega
      rcases hcases with rfl | rfl | rfl | rfl | rfl | rfl | rfl
      · cases hdata
        exact ⟨.uint a, trivial, rfl, hhead, rfl⟩
      · cases hdata
        exact ⟨.nint a, trivial, rfl, hhead, rfl⟩
      · obtain ⟨b, hb, hok⟩ := except_bind_ok hdata
        cases hok
        obtain ⟨hwindow, hlen⟩ := ByteBuffer.getBytes_ok_iff.1 hb
        exact reads_append (.bytes a b) hlen.symm rfl rfl hhead hwindow (by rw [hlen])
      · obtain ⟨b, hb, hok⟩ := except_bind_ok hdata
        cases hok
        obtain ⟨hwindow, hlen⟩ := ByteBuffer.getBytes_ok_iff.1 hb
        exact reads_append (.text a b) hlen.symm rfl rfl hhead hwindow (by rw [hlen])
      · obtain ⟨items, hlen, rfl, hall⟩ := parseArray_ok ih hle hdata
        exact reads_append (.array a items) ⟨hlen.symm, hall.wellFormed⟩ rfl rfl hhead
          hall.window hall.next
      · obtain ⟨entries, hlen, rfl, hkeys, hall⟩ := parseMap_ok ih hle hdata
        exact reads_append (.map a entries) ⟨hlen.symm, hkeys, hall.wellFormed⟩ rfl rfl hhead
          hall.window hall.next
      · obtain ⟨item, hitem, rfl, hwindow, hnext⟩ := ih hdata
        exact reads_append (.tag a item) hitem rfl rfl hhead hwindow hnext

end

/-! ## Items are accepted -/

section

variable {buf : Bytes} {offset count : Nat} {parse : Nat → Except Stop (Value × Nat)}
  {items : List Item} {arr map : List (Key × Value)}

/-- The reader reads each of the items wherever it stands. -/
def Accepts (parse : Nat → Except Stop (Value × Nat)) (buf : Bytes) (items : List Item) : Prop :=
  ∀ item ∈ items, item.WellFormed → ∀ offset, Window buf offset item.encode →
    parse offset = .ok (item.value, offset + item.encode.length)

theorem Accepts.tail {item : Item} (h : Accepts parse buf (item :: items)) :
    Accepts parse buf items := fun other hother => h other (List.mem_cons_of_mem _ hother)

theorem parseArray_encodeAll
    (haccepts : Accepts parse buf items) (hitems : Item.AllWellFormed items)
    (hwindow : Window buf offset (Item.encodeAll items)) :
    parseArray parse items.length arr offset =
      .ok (.array ((Item.values items).foldl push arr), offset + (Item.encodeAll items).length) := by
  induction items generalizing arr offset with
  | nil => rfl
  | cons item items ih =>
    rw [Item.encodeAll] at hwindow
    have hfirst := haccepts item List.mem_cons_self hitems.1 offset hwindow.left
    rw [List.length_cons, parseArray, hfirst, Item.encodeAll, List.length_append, ← Nat.add_assoc]
    exact ih haccepts.tail hitems.2 hwindow.right

theorem parseMap_encodeAll {entries : List Item}
    (hlen : entries.length = 2 * count) (haccepts : Accepts parse buf entries)
    (hkeys : Item.KeysOk (Item.values entries)) (hentries : Item.AllWellFormed entries)
    (hwindow : Window buf offset (Item.encodeAll entries)) :
    parseMap parse count map offset =
      .ok (.array (Item.assign map (Item.values entries)),
        offset + (Item.encodeAll entries).length) := by
  induction count generalizing entries map offset with
  | zero =>
    rw [List.length_eq_zero_iff.1 hlen]
    rfl
  | succ count ih =>
    -- a key and a value in front
    obtain ⟨key, entries, rfl⟩ := List.exists_cons_of_length_pos (by omega : 0 < entries.length)
    rw [List.length_cons] at hlen
    obtain ⟨val, entries, rfl⟩ := List.exists_cons_of_length_pos (by omega : 0 < entries.length)
    rw [List.length_cons] at hlen
    obtain ⟨hkeyWf, hvalWf, hentries⟩ := hentries
    obtain ⟨hkey, hkeys⟩ := hkeys
    rw [Item.encodeAll, Item.encodeAll] at hwindow
    have hparseKey := haccepts key List.mem_cons_self hkeyWf offset hwindow.left
    have hparseVal := haccepts.tail val List.mem_cons_self hvalWf _ hwindow.right.left
    obtain ⟨k, hk⟩ := Option.isSome_iff_exists.1 hkey
    have hrest : ∀ map, parseMap parse count map (offset + key.encode.length + val.encode.length) =
        .ok (.array (Item.assign map (Item.values entries)),
          offset + key.encode.length + val.encode.length + (Item.encodeAll entries).length) := by
      intro map
      exact ih (by omega) haccepts.tail.tail hkeys hentries hwindow.right.right
    have hlength : offset + (Item.encodeAll (key :: val :: entries)).length =
        offset + key.encode.length + val.encode.length + (Item.encodeAll entries).length := by
      rw [Item.encodeAll, Item.encodeAll, List.length_append, List.length_append]
      omega
    rw [parseMap, hparseKey]
    change (parse (offset + key.encode.length) >>= _) = _
    rw [hparseVal, hlength]
    simp only [bind, Except.bind, hk]
    rw [hrest, Item.values, Item.values, Item.assign, hk]
    rfl

end

theorem Item.encode_pos (item : Item) : 0 < item.encode.length := by
  cases item with
  | special s => exact Nat.succ_pos _
  | uint a => exact Nat.succ_pos _
  | nint a => exact Nat.succ_pos _
  | _ =>
    rw [Item.encode, List.length_append, Arg.head, List.length_cons]
    omega

theorem Item.length_encode_le {item : Item} {items : List Item} (h : item ∈ items) :
    item.encode.length ≤ (Item.encodeAll items).length := by
  induction items with
  | nil => cases h
  | cons other items ih =>
    rw [Item.encodeAll, List.length_append]
    rcases List.mem_cons.1 h with rfl | hmem
    · omega
    · have hle := ih hmem
      omega

/-- **Completeness**: an item is accepted wherever it stands, when there is a level of
nesting for each of its bytes. -/
theorem parseItem_encode {buf : Bytes} {depth offset : Nat} {item : Item} (hitem : item.WellFormed)
    (hdepth : item.encode.length ≤ depth) (hwindow : Window buf offset item.encode) :
    parseItem buf depth offset = .ok (item.value, offset + item.encode.length) := by
  induction depth generalizing item offset with
  | zero =>
    have hpos := item.encode_pos
    omega
  | succ depth ih =>
    -- what stands behind a head is shorter than the whole
    have inside : ∀ {a : Arg} {major : Nat} {rest : Bytes},
        item.encode = a.head major ++ rest → rest.length ≤ depth := by
      intro a major rest hencode
      rw [hencode, List.length_append, Arg.head, List.length_cons] at hdepth
      omega
    have accepts : ∀ items : List Item, (Item.encodeAll items).length ≤ depth →
        Accepts (parseItem buf depth) buf items := by
      intro items hle other hother hwf offset hw
      exact ih hwf ((Item.length_encode_le hother).trans hle) hw
    cases item with
    | special s => exact parseItem_special s hwindow
    | uint a => exact parseItem_head a (by omega) hwindow
    | nint a => exact parseItem_head a (by omega) hwindow
    | bytes a b | text a b =>
      rw [Item.encode] at hwindow
      rw [parseItem_head a (by omega) hwindow.left, Item.encode, List.length_append, ← Nat.add_assoc]
      have hb := ByteBuffer.getBytes_ok_iff.2 ⟨hwindow.right, rfl⟩
      have hlen : a.value = b.length := hitem
      rw [hlen]
      change (ByteBuffer.getBytes buf _ b.length >>= _) = _
      rw [hb]
      rfl
    | array a items =>
      obtain ⟨hlen, hitems⟩ := hitem
      have haccepts := accepts items (inside rfl)
      rw [Item.encode] at hwindow
      rw [parseItem_head a (by omega) hwindow.left, Item.encode, List.length_append, ← Nat.add_assoc,
        hlen]
      exact parseArray_encodeAll haccepts hitems hwindow.right
    | map a entries =>
      obtain ⟨hlen, hkeys, hentries⟩ := hitem
      have haccepts := accepts entries (inside rfl)
      rw [Item.encode] at hwindow
      rw [parseItem_head a (by omega) hwindow.left, Item.encode, List.length_append, ← Nat.add_assoc]
      exact parseMap_encodeAll hlen.symm haccepts hkeys hentries hwindow.right
    | tag a item =>
      have hinner : item.WellFormed := hitem
      have hle : item.encode.length ≤ depth := inside rfl
      rw [Item.encode] at hwindow
      rw [parseItem_head a (by omega) hwindow.left, Item.encode, List.length_append, ← Nat.add_assoc]
      exact ih hinner hle hwindow.right

/-! ## The nesting is never too deep -/

section

variable {α β : Type} {buf : Bytes} {offset val count : Nat} {x : Except Stop α} {v : Value}

/-- Nesting is no reason for this call to stop. -/
def NoStack (x : Except Stop α) : Prop := x ≠ .error .stack

theorem noStack_ok (a : α) : NoStack (.ok a) := by
  intro h
  cases h

theorem noStack_exception (message : Str) :
    NoStack (.error (.exception message) : Except Stop α) := by
  intro h
  cases h

theorem noStack_bind {f : α → Except Stop β} (hx : NoStack x)
    (hf : ∀ a, x = .ok a → NoStack (f a)) : NoStack (x >>= f) := by
  cases x with
  | error e =>
    intro h
    cases h
    exact hx rfl
  | ok a => exact hf a rfl

theorem noStack_bind_ok {f : α → β} (hx : NoStack x) : NoStack (x >>= fun a => .ok (f a)) :=
  noStack_bind hx fun a _ => noStack_ok (f a)

theorem noStack_map {f : α → β} (hx : NoStack x) : NoStack (f <$> x) := by
  cases x with
  | error e =>
    intro h
    cases h
    exact hx rfl
  | ok a => exact noStack_ok _

theorem noStack_unpackAt {width : Nat} : NoStack (ByteBuffer.unpackAt width buf offset) := by
  unfold ByteBuffer.unpackAt
  split
  · exact noStack_exception _
  · exact noStack_ok _

theorem noStack_inRange {n : Nat} : NoStack (ByteBuffer.inRange n) := by
  unfold ByteBuffer.inRange
  split
  · exact noStack_exception _
  · exact noStack_ok _

theorem noStack_getBytes {length : Nat} : NoStack (ByteBuffer.getBytes buf offset length) := by
  unfold ByteBuffer.getBytes
  split
  · exact noStack_exception _
  · exact noStack_ok _

theorem noStack_parseSimple : NoStack (parseSimple val) := by
  unfold parseSimple
  split
  · exact noStack_ok _
  · split
    · exact noStack_ok _
    · split
      · exact noStack_ok _
      · exact noStack_exception _

theorem noStack_parseFloatSimple : NoStack (parseFloatSimple val buf offset) := by
  unfold parseFloatSimple
  split
  · exact noStack_bind noStack_unpackAt fun code _ => noStack_bind_ok noStack_parseSimple
  · exact noStack_bind_ok (noStack_map noStack_unpackAt)
  · exact noStack_bind_ok (noStack_map noStack_unpackAt)
  · exact noStack_bind_ok (noStack_map noStack_unpackAt)
  · exact noStack_exception _
  · exact noStack_exception _
  · exact noStack_exception _
  · exact noStack_exception _
  · exact noStack_bind_ok noStack_parseSimple

theorem noStack_parseExtraLength : NoStack (parseExtraLength val buf offset) := by
  unfold parseExtraLength
  split
  · exact noStack_bind_ok noStack_unpackAt
  · exact noStack_bind_ok noStack_unpackAt
  · exact noStack_bind_ok (noStack_bind noStack_unpackAt fun _ _ => noStack_inRange)
  · exact noStack_bind_ok (noStack_bind noStack_unpackAt fun _ _ => noStack_inRange)
  · exact noStack_exception _
  · exact noStack_exception _
  · exact noStack_exception _
  · exact noStack_exception _
  · exact noStack_ok _

/-- A reader that does not stop for its nesting from an offset on, and moves on. -/
structure Shallow (parse : Nat → Except Stop (Value × Nat)) (buf : Bytes) (start : Nat) : Prop where
  noStack : ∀ offset, start ≤ offset → offset ≤ buf.length → NoStack (parse offset)
  reads : ∀ {offset v offset'}, parse offset = .ok (v, offset') → Reads buf offset v offset'

theorem Shallow.next {parse : Nat → Except Stop (Value × Nat)} {start offset' : Nat}
    (h : Shallow parse buf start) (hstart : start ≤ offset) (hparse : parse offset = .ok (v, offset')) :
    start ≤ offset' ∧ offset' ≤ buf.length := by
  have hle := (h.reads hparse).le
  exact ⟨hstart.trans hle.1, hle.2⟩

variable {parse : Nat → Except Stop (Value × Nat)} {start : Nat}

theorem noStack_parseArray {arr : List (Key × Value)} (h : Shallow parse buf start)
    (hstart : start ≤ offset) (hoffset : offset ≤ buf.length) :
    NoStack (parseArray parse count arr offset) := by
  induction count generalizing arr offset with
  | zero => exact noStack_ok _
  | succ count ih =>
    refine noStack_bind (h.noStack offset hstart hoffset) ?_
    rintro ⟨item, next⟩ hitem
    have hnext := h.next hstart hitem
    exact ih hnext.1 hnext.2

theorem noStack_parseMap {map : List (Key × Value)} (h : Shallow parse buf start)
    (hstart : start ≤ offset) (hoffset : offset ≤ buf.length) :
    NoStack (parseMap parse count map offset) := by
  induction count generalizing map offset with
  | zero => exact noStack_ok _
  | succ count ih =>
    refine noStack_bind (h.noStack offset hstart hoffset) ?_
    rintro ⟨key, next⟩ hkey
    have hnext := h.next hstart hkey
    refine noStack_bind (h.noStack next hnext.1 hnext.2) ?_
    rintro ⟨val, next'⟩ hval
    have hnext' := h.next hnext.1 hval
    dsimp only
    split
    · exact noStack_exception _
    · exact ih hnext'.1 hnext'.2

/-- With more levels than bytes the nesting is not the reason to stop. -/
theorem noStack_parseItem {depth : Nat} (hpos : 0 < depth) (hdepth : buf.length < offset + depth) :
    NoStack (parseItem buf depth offset) := by
  induction depth generalizing offset with
  | zero => omega
  | succ depth ih =>
    refine noStack_bind noStack_unpackAt ?_
    intro first hfirst
    have hle : offset + 1 ≤ buf.length := (ByteBuffer.unpackAt_ok_iff.1 hfirst).1.le
    -- the calls inside start behind the first byte
    have shallow : Shallow (parseItem buf depth) buf (offset + 1) := by
      refine ⟨?_, parseItem_ok⟩
      intro inner hstart hinner
      exact ih (by omega) (by omega)
    dsimp only
    split
    · exact noStack_parseFloatSimple
    · refine noStack_bind noStack_parseExtraLength ?_
      rintro ⟨val, next⟩ hextra
      have hcode : first &&& 0b11111 < 32 := Nat.and_lt_two_pow _ (by decide : 0b11111 < 2 ^ 5)
      obtain ⟨a, -, rfl, hwindow, rfl⟩ := parseExtraLength_ok hcode hle hextra
      have hnext := hwindow.le
      have hstart : offset + 1 ≤ offset + 1 + a.extra.length := Nat.le_add_right _ _
      dsimp only
      unfold parseItemData
      split
      · exact noStack_ok _
      · exact noStack_ok _
      · exact noStack_bind_ok noStack_getBytes
      · exact noStack_bind_ok noStack_getBytes
      · exact noStack_parseArray shallow hstart hnext
      · exact noStack_parseMap shallow hstart hnext
      · exact shallow.noStack _ hstart hnext
      · exact noStack_exception _

end

/-! ## The decoder -/

/-- What stands at an offset, as `decodeInPlace` reads it. -/
theorem decodeInPlace_ok_iff {buf : Bytes} {offset offset' : Nat} {v : Value} :
    decodeInPlace buf offset = .ok (v, offset') ↔ Reads buf offset v offset' := by
  constructor
  · exact parseItem_ok
  · rintro ⟨item, hitem, rfl, hwindow, rfl⟩
    have hle := hwindow.le
    exact parseItem_encode hitem (by omega) hwindow

/-- `decode` takes the whole buffer for one item. -/
theorem decode_ok_iff {b : Bytes} {v : Value} : decode b = .ok v ↔ Reads b 0 v b.length := by
  rw [← decodeInPlace_ok_iff]
  unfold decode decodeInPlace
  cases parseItem b (b.length + 1) 0 with
  | error e =>
    constructor
    · intro h
      cases h
    · intro h
      cases h
  | ok result =>
    obtain ⟨w, next⟩ := result
    change (if next ≠ b.length then _ else Except.ok w) = _ ↔ _
    split
    · next hnext =>
      constructor
      · intro h
        cases h
      · intro h
        cases h
        exact absurd rfl hnext
    · next hnext =>
      rw [not_not] at hnext
      rw [hnext]
      constructor
      · intro h
        cases h
        rfl
      · intro h
        cases h
        rfl

theorem noStack_decode (b : Bytes) : NoStack (decode b) := by
  refine noStack_bind (noStack_parseItem (Nat.succ_pos _) (by omega)) ?_
  rintro ⟨w, next⟩ -
  dsimp only
  split
  · exact noStack_exception _
  · exact noStack_ok _

theorem decode_item_iff {b : Bytes} {v : Value} :
    decode b = .ok v ↔ ∃ item : Item, item.WellFormed ∧ item.encode = b ∧ item.value = v := by
  rw [decode_ok_iff]
  constructor
  · rintro ⟨item, hitem, hvalue, hwindow, hlen⟩
    rw [Nat.zero_add] at hlen
    exact ⟨item, hitem, window_whole.1 ⟨hwindow, hlen⟩, hvalue⟩
  · rintro ⟨item, hitem, hencode, hvalue⟩
    obtain ⟨hwindow, hlen⟩ := window_whole.2 hencode
    exact ⟨item, hitem, hvalue, hwindow, by rw [Nat.zero_add, hlen]⟩

/-- **The decoder accepts exactly the items**: it returns a value if the bytes are the
encoding of a well-formed item with this value, and throws an exception otherwise. It
never fails because items are nested too deeply. -/
theorem decode_exact (b : Bytes) :
    (∀ v, decode b = .ok v ↔ ∃ item : Item, item.WellFormed ∧ item.encode = b ∧ item.value = v) ∧
      decode b ≠ .error .stack := ⟨fun _ => decode_item_iff, noStack_decode b⟩

-- a map with the key 1024.0, and one with the key 0.5
example : decode [0xa1, 0xf9, 0x64, 0x00, 0x00] = .ok (.array [(.int 1024, .int 0)]) ∧
    decode [0xa1, 0xf9, 0x38, 0x00, 0x00] =
      .error (.exception "Can only use strings or integers as map keys") := ⟨rfl, rfl⟩

end Dockerset.WebauthnData.Cbor
