import GameServer.Seri

/-!
# What is unpacked is what was packed

The blocks hold one string of bytes behind the other (`Wrote`), and a string of bytes stands for a
value when `unpackOne` reads that value off the front of any stream that begins with it (`Stands`).
Packing writes, for every value, bytes that stand for a copy of it.
-/

namespace GameServer.Seri

open Memory

/-! ## Blocks -/

namespace WriteBlock

variable {b b' b'' : WriteBlock} {bytes bytes' buffer : List UInt8}

def contents (b : WriteBlock) : List UInt8 := b.full.flatten ++ b.current

structure Good (b : WriteBlock) : Prop where
  full : ∀ block ∈ b.full, block.length = BLOCK_SIZE
  ptr : b.ptr ≤ BLOCK_SIZE
  len : b.len = toInt b.contents.length

theorem good_init : init.Good :=
  ⟨fun _ h => (nomatch h), Nat.zero_le _, by simp [init, contents, toInt]⟩

theorem contents_alloc : b.alloc.contents = b.contents := by
  simp [contents, alloc]

theorem ptr_alloc : b.alloc.ptr < BLOCK_SIZE := Nat.zero_lt_succ 127

theorem contents_copy : (b.copy buffer).contents = b.contents ++ buffer := by
  simp [contents, copy]

theorem Good.alloc (h : b.Good) (hptr : b.ptr = BLOCK_SIZE) : b.alloc.Good where
  full := by
    intro block hblock
    rcases List.mem_append.mp hblock with hblock | hblock
    · exact h.full block hblock
    · rw [List.mem_singleton.mp hblock]
      exact hptr
  ptr := Nat.zero_le _
  len := by
    rw [contents_alloc]
    exact h.len

theorem Good.copy (h : b.Good) (hptr : b.ptr + buffer.length ≤ BLOCK_SIZE) :
    (b.copy buffer).Good where
  full := h.full
  ptr := by simpa [WriteBlock.ptr, WriteBlock.copy] using hptr
  len := by
    change toInt (b.len + buffer.length) = _
    rw [contents_copy, List.length_append, Nat.cast_add, h.len]
    exact Int.bmod_add_bmod

theorem fill_good {n : ℕ} (h : b.Good) (hptr : b.ptr < BLOCK_SIZE) (hn : buffer.length < n) :
    (fill n b buffer).Good ∧ (fill n b buffer).contents = b.contents ++ buffer := by
  induction n generalizing b buffer with
  | zero => omega
  | succ n ih =>
      unfold fill
      split_ifs with hfits
      · exact ⟨h.copy hfits, contents_copy⟩
      · have htake : (buffer.take (BLOCK_SIZE - b.ptr)).length = BLOCK_SIZE - b.ptr := by
          rw [List.length_take]
          omega
        have hcopy : (b.copy (buffer.take (BLOCK_SIZE - b.ptr))).ptr = BLOCK_SIZE := by
          have hsum : (b.copy (buffer.take (BLOCK_SIZE - b.ptr))).ptr =
              b.ptr + (buffer.take (BLOCK_SIZE - b.ptr)).length := List.length_append
          omega
        have hgood : (b.copy (buffer.take (BLOCK_SIZE - b.ptr))).alloc.Good :=
          (h.copy (by omega)).alloc hcopy
        have hdrop : (buffer.drop (BLOCK_SIZE - b.ptr)).length < n := by
          rw [List.length_drop]
          omega
        have hrest := ih hgood ptr_alloc hdrop
        rw [contents_alloc, contents_copy, List.append_assoc, List.take_append_drop] at hrest
        exact hrest

/-- When `b` is good, so is `b'`, and it holds these bytes behind what `b` holds. -/
def Wrote (b b' : WriteBlock) (bytes : List UInt8) : Prop :=
  b.Good → b'.Good ∧ b'.contents = b.contents ++ bytes

theorem Wrote.refl : Wrote b b [] := fun h => ⟨h, (List.append_nil _).symm⟩

theorem Wrote.trans (h : Wrote b b' bytes) (h' : Wrote b' b'' bytes') :
    Wrote b b'' (bytes ++ bytes') := by
  intro hgood
  obtain ⟨hgood', hcontents⟩ := h hgood
  obtain ⟨hgood'', hcontents'⟩ := h' hgood'
  refine ⟨hgood'', ?_⟩
  rw [hcontents', hcontents, List.append_assoc]

theorem wrote_push (b : WriteBlock) (buffer : List UInt8) : Wrote b (b.push buffer) buffer := by
  intro hgood
  have hptr := hgood.ptr
  unfold push
  split_ifs with hfull
  · have h := fill_good (hgood.alloc hfull) ptr_alloc (Nat.lt_succ_self buffer.length)
    rwa [contents_alloc] at h
  · exact fill_good hgood (by omega) (Nat.lt_succ_self _)

end WriteBlock

open WriteBlock

theorem seri_blocks {full : List (List UInt8)} {current : List UInt8}
    (hfull : ∀ block ∈ full, block.length = BLOCK_SIZE) (hptr : current.length ≤ BLOCK_SIZE) :
    seri (full ++ [current]) (full.flatten ++ current).length = full.flatten ++ current := by
  induction full with
  | nil =>
      change (if BLOCK_SIZE ≤ current.length then current.take BLOCK_SIZE ++ [] else
        current.take current.length) = current
      rw [List.append_nil, List.take_length, List.take_of_length_le hptr, ite_self]
  | cons block full ih =>
      have hblock := hfull block List.mem_cons_self
      have hrest := ih fun x hx => hfull x (List.mem_cons_of_mem _ hx)
      have hlen : ((block :: full).flatten ++ current).length =
          BLOCK_SIZE + (full.flatten ++ current).length := by
        simp [hblock]
      rw [hlen, List.cons_append, seri, if_pos (Nat.le_add_right _ _), Nat.add_sub_cancel_left,
        hrest, List.take_of_length_le hblock.le, List.flatten_cons, List.append_assoc]

theorem toInt_of_lt {n : ℕ} (h : n < 2 ^ 31) : toInt n = n := by
  unfold toInt
  rw [Int.bmod_eq_of_le (by omega) (by omega)]

/-- As long as the length is an `int`, the blocks are read back. -/
theorem seri_contents {b : WriteBlock} (h : b.Good) (hlen : b.contents.length < 2 ^ 31) :
    0 ≤ b.len ∧ seri (b.full ++ [b.current]) b.len.toNat = b.contents := by
  rw [h.len, toInt_of_lt hlen, Int.toNat_natCast]
  exact ⟨Int.natCast_nonneg _, seri_blocks h.full h.ptr⟩

/-! ## Reading -/

/-- `unpackOne` reads the value off the front of a stream that begins with these bytes. -/
structure Stands (bytes : List UInt8) (d : Data) : Prop where
  pos : 0 < bytes.length
  reads : ∀ fuel rest, bytes.length ≤ fuel → unpackOne fuel (bytes ++ rest) = .ok (d, rest)

theorem ok_bind {α β : Type} (a : α) (f : α → Except Error β) :
    (Except.ok a >>= f : Except Error β) = f a := rfl

theorem rbRead_append {n : ℕ} {bytes rest : List UInt8} (h : bytes.length = n) :
    rbRead n (bytes ++ rest) = .ok (bytes, rest) := by
  unfold rbRead
  rw [if_neg (by rw [List.length_append]; omega), List.take_left' h, List.drop_left' h]

theorem toNat_combine {t c : ℕ} (ht : t < 8) (hc : c < 32) :
    (COMBINE_TYPE t c).toNat = t + 8 * c := by
  have hmod : ((c : ℤ) % 32).toNat = c := by omega
  unfold COMBINE_TYPE
  rw [hmod, UInt8.toNat_ofNat', Nat.mod_eq_of_lt (by omega)]

theorem fromLittle_single (t : UInt8) : fromLittle [t] = t.toNat := rfl

theorem rbRead_cons (t : UInt8) (rb : ReadBlock) : rbRead 1 (t :: rb) = .ok ([t], rb) :=
  (rbRead_append rfl : rbRead 1 ([t] ++ rb) = .ok ([t], rb))

theorem unpackOne_cons {n : ℕ} {t : UInt8} {rb : ReadBlock} : unpackOne (n + 1) (t :: rb) =
    pushValue (unpackOne n) (n + 1) (t.toNat % 8) (t.toNat / 8) rb := by
  unfold unpackOne
  rw [rbRead_cons]
  rfl

/-- A type with its cookie, and what `pushValue` reads behind it. -/
theorem stands_of_push {t c : ℕ} {payload : List UInt8} {d : Data} (ht : t < 8) (hc : c < 32)
    (h : ∀ n rest, payload.length ≤ n →
      pushValue (unpackOne n) (n + 1) t c (payload ++ rest) = .ok (d, rest)) :
    Stands (COMBINE_TYPE t c :: payload) d where
  pos := Nat.zero_lt_succ _
  reads fuel rest hfuel := by
    obtain ⟨n, rfl⟩ := Nat.exists_eq_add_of_le' hfuel
    have hn : payload.length ≤ n + payload.length := Nat.le_add_left _ _
    change unpackOne (n + payload.length + 1) (_ :: (payload ++ rest)) = _
    rw [unpackOne_cons, toNat_combine ht hc, Nat.add_mul_mod_self_left, Nat.mod_eq_of_lt ht,
      Nat.add_mul_div_left _ _ (by decide), Nat.div_eq_of_lt ht, Nat.zero_add]
    exact h _ rest hn

/-! ## Values that are no tables -/

variable {b b' : WriteBlock} {rest : List UInt8}

theorem ofNat_little {v : BitVec 64} : BitVec.ofNat 64 (fromLittle (little 8 v.toNat)) = v := by
  rw [fromLittle_of_lt v.isLt, BitVec.ofNat_toNat, BitVec.setWidth_eq]

theorem getInteger_dword {v : BitVec 64} (h : v = (v.setWidth 32).signExtend 64) :
    getInteger 4 (little 4 (v.setWidth 32).toNat ++ rest) = .ok (v, rest) := by
  unfold getInteger
  rw [rbRead_append (length_little 4 _), ok_bind]
  simp only
  rw [fromLittle_of_lt (v.setWidth 32).isLt, BitVec.ofNat_toNat, BitVec.setWidth_eq, ← h]
  rfl

theorem getInteger_qword (v : BitVec 64) :
    getInteger 6 (little 8 v.toNat ++ rest) = .ok (v, rest) := by
  unfold getInteger
  rw [rbRead_append (length_little 8 _), ok_bind]
  simp only
  rw [ofNat_little]
  rfl

theorem ofNat_little_of_lt {v : BitVec 64} {n : ℕ} (h : v.toNat < 256 ^ n) :
    BitVec.ofNat 64 (fromLittle (little n v.toNat)) = v := by
  rw [fromLittle_of_lt h, BitVec.ofNat_toNat, BitVec.setWidth_eq]

theorem getInteger_byte {v : BitVec 64} (h : v.toNat < 256 ^ 1) :
    getInteger 1 (little 1 v.toNat ++ rest) = .ok (v, rest) := by
  unfold getInteger
  rw [rbRead_append (length_little 1 _), ok_bind]
  simp only
  rw [ofNat_little_of_lt h]
  rfl

theorem getInteger_word {v : BitVec 64} (h : v.toNat < 256 ^ 2) :
    getInteger 2 (little 2 v.toNat ++ rest) = .ok (v, rest) := by
  unfold getInteger
  rw [rbRead_append (length_little 2 _), ok_bind]
  simp only
  rw [ofNat_little_of_lt h]
  rfl

theorem toNat_of_toInt {v : BitVec 64} {n : ℕ} (h : ¬ v.toInt < 0) (hn : v.toInt < n) :
    v.toNat < n := by
  rw [BitVec.toInt_eq_toNat_cond] at h hn
  split_ifs at h hn <;> omega

theorem wrote_tagged (b : WriteBlock) (tag : UInt8) (payload : List UInt8) :
    Wrote b ((b.push [tag]).push payload) (tag :: payload) :=
  (wrote_push b [tag]).trans (wrote_push _ payload)

/-- An integer is written with a cookie and as many bytes as that says. -/
theorem wrote_integer (b : WriteBlock) (v : BitVec 64) : ∃ cookie payload, cookie < 8 ∧
    Wrote b (wbInteger b v) (COMBINE_TYPE 2 (cookie : ℕ) :: payload) ∧
    ∀ rest, getInteger cookie (payload ++ rest) = .ok (v, rest) := by
  unfold wbInteger
  split_ifs with hzero hqword hneg hbyte hword
  · exact ⟨0, [], by decide, wrote_push b _, fun _ => hzero ▸ rfl⟩
  · exact ⟨6, _, by decide, wrote_tagged b _ _, fun _ => getInteger_qword v⟩
  · exact ⟨4, _, by decide, wrote_tagged b _ _, fun _ => getInteger_dword (not_not.mp hqword)⟩
  · exact ⟨1, _, by decide, wrote_tagged b _ _, fun _ =>
      getInteger_byte (toNat_of_toInt hneg hbyte)⟩
  · exact ⟨2, _, by decide, wrote_tagged b _ _, fun _ =>
      getInteger_word (toNat_of_toInt hneg hword)⟩
  · exact ⟨4, _, by decide, wrote_tagged b _ _, fun _ => getInteger_dword (not_not.mp hqword)⟩

theorem stands_nil : Stands [COMBINE_TYPE 0 0] .nil :=
  stands_of_push (c := 0) (by decide) (by decide) fun _ _ _ => rfl

theorem stands_boolean (x : Bool) :
    Stands [COMBINE_TYPE 1 (if x then 1 else 0)] (.atom (.boolean x)) := by
  cases x with
  | false => exact stands_of_push (c := 0) (by decide) (by decide) fun _ _ _ => rfl
  | true => exact stands_of_push (c := 1) (by decide) (by decide) fun _ _ _ => rfl

theorem getWord_little (v : BitVec 64) :
    getWord (little 8 v.toNat ++ rest) = .ok (v, rest) := by
  unfold getWord
  rw [rbRead_append (length_little 8 _), ok_bind]
  simp only
  rw [ofNat_little]
  rfl

theorem stands_real (v : BitVec 64) :
    Stands (COMBINE_TYPE 2 8 :: little 8 v.toNat) (.atom (.real v)) := by
  apply stands_of_push (c := 8) (by decide) (by decide)
  intro n rest _
  unfold pushValue
  rw [if_pos rfl, getWord_little]
  rfl

theorem stands_userdata (v : BitVec 64) :
    Stands (COMBINE_TYPE 3 0 :: little 8 v.toNat) (.atom (.userdata v)) := by
  apply stands_of_push (c := 0) (by decide) (by decide)
  intro n rest _
  unfold pushValue
  rw [getWord_little]
  rfl

theorem stands_integer {cookie : ℕ} {payload : List UInt8} {v : BitVec 64} (hcookie : cookie < 8)
    (h : ∀ rest, getInteger cookie (payload ++ rest) = .ok (v, rest)) :
    Stands (COMBINE_TYPE 2 cookie :: payload) (.atom (.integer v)) := by
  apply stands_of_push (by decide) (by omega)
  intro n rest _
  unfold pushValue
  rw [if_neg (by omega), h]
  rfl

theorem getBuffer_append {s : List UInt8} (h : s.length < 2 ^ 31) :
    getBuffer s.length (s ++ rest) = .ok (.atom (.string s), rest) := by
  unfold getBuffer
  rw [toInt_of_lt h, if_neg (by omega), rbRead_append rfl]
  rfl

theorem stands_short {s : List UInt8} (h : s.length < 32) :
    Stands (COMBINE_TYPE 4 s.length :: s) (.atom (.string s)) := by
  have hlen : s.length < 2 ^ 31 := by omega
  apply stands_of_push (by decide) h
  intro n rest _
  unfold pushValue
  simp only
  exact getBuffer_append hlen

theorem stands_word {s : List UInt8} (h : s.length < 0x10000) :
    Stands (COMBINE_TYPE 5 2 :: (little 2 s.length ++ s)) (.atom (.string s)) := by
  apply stands_of_push (c := 2) (by decide) (by decide)
  intro n rest _
  unfold pushValue
  rw [if_pos rfl, List.append_assoc, rbRead_append (length_little 2 _), ok_bind]
  simp only
  rw [fromLittle_of_lt (by omega)]
  apply getBuffer_append
  omega

theorem stands_dword {s : List UInt8} (h : s.length < 2 ^ 31) :
    Stands (COMBINE_TYPE 5 4 :: (little 4 s.length ++ s)) (.atom (.string s)) := by
  apply stands_of_push (c := 4) (by decide) (by decide)
  intro n rest _
  unfold pushValue
  rw [if_neg (by decide), if_neg (by decide), if_neg (by decide), List.append_assoc,
    rbRead_append (length_little 4 _), ok_bind]
  simp only
  rw [fromLittle_of_lt (by omega)]
  exact getBuffer_append h

/-- A string is written behind its length, or with it in the cookie. -/
theorem wrote_string (b : WriteBlock) {s : List UInt8} (h : s.length < 2 ^ 31) :
    ∃ bytes, Wrote b (wbString b s (toInt s.length)) bytes ∧ Stands bytes (.atom (.string s)) := by
  unfold wbString
  rw [toInt_of_lt h, Int.toNat_natCast, List.take_length]
  split_ifs with hshort hpos hword
  · exact ⟨_, wrote_tagged b _ s, stands_short (Int.ofNat_lt.mp hshort)⟩
  · obtain rfl : s = [] := List.length_eq_zero_iff.mp (by omega)
    exact ⟨_, wrote_push b _, stands_short (Nat.zero_lt_succ 31)⟩
  · have hlen : s.length < 0x10000 := by omega
    exact ⟨_, (wrote_tagged b _ (little 2 s.length)).trans (wrote_push _ s), stands_word hlen⟩
  · exact ⟨_, (wrote_tagged b _ (little 4 s.length)).trans (wrote_push _ s), stands_dword h⟩

/-! ## Copies -/

/-- What is packed of a table. -/
def Table.content (t : Table) : List (Value × Value) := t.metapairs.getD t.entries

/-- The tree is the value with every table copied, at most `levels` deep. -/
def Copies (H : Heap) : ℕ → Value → Data → Prop
  | _ + 1, .nil, .nil => True
  | _ + 1, .atom a, .atom a' => a = a'
  | levels + 1, .table address, .table fields => ∃ es, es.Perm (H address).content ∧
      List.Forall₂ (fun e f => Copies H levels e.1 f.1 ∧ Copies H levels e.2 f.2) es fields
  | _, _, _ => False

/-- The length of a string is an `int`. -/
def Value.Fits : Value → Prop
  | .atom (.string s) => s.length < 2 ^ 31
  | _ => True

/-- What a table may have as a key. -/
def Value.IsKey : Value → Prop
  | .nil => False
  | .atom (.real v) => isNan v = false ∧ realInteger v = none
  | _ => True

/-- What Lua keeps of every table, and what is asked of a `__pairs`. -/
structure Table.Proper (t : Table) : Prop where
  distinct : (t.content.map Prod.fst).Nodup
  keys : ∀ e ∈ t.content, e.1.IsKey ∧ e.1.Fits
  values : ∀ e ∈ t.content, e.2 ≠ .nil ∧ e.2.Fits
  rawlen : t.rawlen < 2 ^ 31
  border : t.metapairs = none → t.rawlen ≠ 0 → t.rawgeti t.rawlen ≠ .nil

variable {H : Heap} {n : ℕ} {v k : Value} {d dk dv : Data} {es es' : List (Value × Value)}
  {fields : Fields} {t : Table}

def CopiesPair (H : Heap) (n : ℕ) (e : Value × Value) (f : Data × Data) : Prop :=
  Copies H n e.1 f.1 ∧ Copies H n e.2 f.2

theorem Copies.eq_nil (h : Copies H n v .nil) : v = .nil := by
  cases n <;> cases v <;> first | rfl | exact h.elim

theorem Copies.of_nil (h : Copies H n .nil d) : d = .nil := by
  cases n <;> cases d <;> first | rfl | exact h.elim

theorem Copies.eq_atom {a : Atom} (h : Copies H n v (.atom a)) : v = .atom a := by
  cases n with
  | zero => exact h.elim
  | succ n =>
      cases v with
      | atom a' => exact congrArg Value.atom h
      | nil | table | other => exact h.elim

theorem Copies.atom {a : Atom} (h : Copies H n v d) : Copies H n (.atom a) (.atom a) := by
  cases n with
  | zero =>
      unfold Copies at h
      exact h.elim
  | succ n => rfl

/-- A copy of a new key is not a key of the copies. -/
theorem fresh_of_copies (h : List.Forall₂ (CopiesPair H n) es fields)
    (hk : k ∉ es.map Prod.fst) (hcopy : Copies H n k dk) :
    ∀ f ∈ fields, sameKey dk f.1 = false := by
  induction h with
  | nil => exact fun _ hf => absurd hf List.not_mem_nil
  | @cons e f es fields he _ ih =>
      rw [List.map_cons, List.mem_cons, not_or] at hk
      intro g hg
      rcases List.mem_cons.mp hg with rfl | hg
      · by_contra hsame
        have hne := hk.1
        obtain ⟨dk', dv'⟩ := g
        cases dk with
        | nil | table => exact hsame rfl
        | atom a =>
            cases dk' with
            | nil | table => exact hsame rfl
            | atom a' =>
                have ha : a = a' := by simpa [sameKey] using hsame
                rw [hcopy.eq_atom, he.1.eq_atom, ha] at hne
                exact hne rfl
      · exact ih hk.2 g hg

theorem rawset_of_copies (hk : k.IsKey) (hcopy : Copies H n k dk) :
    rawset fields dk dv = .ok (rawset.put fields dk dv) := by
  cases dk with
  | nil =>
      rw [hcopy.eq_nil] at hk
      exact hk.elim
  | table _ => rfl
  | atom a =>
      rw [hcopy.eq_atom] at hk
      cases a with
      | real x =>
          obtain ⟨hnan, hinteger⟩ : isNan x = false ∧ realInteger x = none := hk
          simp [rawset, luaKey, hnan, hinteger]
      | boolean | integer | userdata | string => rfl

theorem put_fresh (hfresh : ∀ f ∈ fields, sameKey dk f.1 = false) (hv : dv ≠ .nil) :
    rawset.put fields dk dv = fields ++ [(dk, dv)] := by
  have hnone : ¬ (fields.any fun e => sameKey dk e.1) = true := by
    rw [List.any_eq_true]
    rintro ⟨f, hf, hsame⟩
    rw [hfresh f hf] at hsame
    cases hsame
  cases dv with
  | nil => exact absurd rfl hv
  | atom | table => exact if_neg hnone

theorem put_nil (hfresh : ∀ f ∈ fields, sameKey dk f.1 = false) :
    rawset.put fields dk .nil = fields := by
  apply List.filter_eq_self.mpr
  intro f hf
  rw [hfresh f hf]
  rfl

/-- A new entry is a copy behind the copies. -/
theorem rawset_fresh (h : List.Forall₂ (CopiesPair H n) es fields) (hk : k ∉ es.map Prod.fst)
    (hkey : k.IsKey) (hv : v ≠ .nil) (hpair : CopiesPair H n (k, v) (dk, dv)) :
    ∃ fields', rawset fields dk dv = .ok fields' ∧
      List.Forall₂ (CopiesPair H n) (es ++ [(k, v)]) fields' := by
  have hdv : dv ≠ .nil := fun hnil => hv (hnil ▸ hpair.2).eq_nil
  refine ⟨fields ++ [(dk, dv)], ?_, ?_⟩
  · rw [rawset_of_copies hkey hpair.1, put_fresh (fresh_of_copies h hk hpair.1) hdv]
  · exact List.rel_append h (.cons hpair .nil)

theorem rawset_nil (h : List.Forall₂ (CopiesPair H n) es fields) (hk : k ∉ es.map Prod.fst)
    (hkey : k.IsKey) (hcopy : Copies H n k dk) : rawset fields dk .nil = .ok fields := by
  rw [rawset_of_copies hkey hcopy, put_nil (fresh_of_copies h hk hcopy)]

/-! ## Tables -/

theorem bind_ok {α β : Type} {x : Except Error α} {f : α → Except Error β} {c : β}
    (h : x >>= f = .ok c) : ∃ a, x = .ok a ∧ f a = .ok c := by
  cases x with
  | error e => cases h
  | ok a => exact ⟨a, rfl, h⟩

/-- Each step of a loop writes the bytes of what it comes to. -/
theorem wrote_foldlM {α δ : Type} {f : WriteBlock → α → Except Error WriteBlock}
    {R : α → δ → List UInt8 → Prop} {l : List α}
    (hf : ∀ a ∈ l, ∀ b b', f b a = .ok b' → ∃ d bytes, Wrote b b' bytes ∧ R a d bytes)
    (h : l.foldlM f b = .ok b') : ∃ out : List (δ × List UInt8),
      Wrote b b' (out.map Prod.snd).flatten ∧ List.Forall₂ (fun a o => R a o.1 o.2) l out := by
  induction l generalizing b with
  | nil =>
      cases h
      exact ⟨[], .refl, .nil⟩
  | cons a l ih =>
      rw [List.foldlM_cons] at h
      obtain ⟨b₁, ha, hl⟩ := bind_ok h
      obtain ⟨d, bytes, hwrote, hR⟩ := hf a List.mem_cons_self b b₁ ha
      obtain ⟨out, hout, hall⟩ := ih (fun x hx => hf x (List.mem_cons_of_mem _ hx)) hl
      exact ⟨(d, bytes) :: out, hwrote.trans hout, .cons hR hall⟩

theorem foldlM_skip {α β : Type} (p : α → Bool) (f : β → α → Except Error β) (l : List α) (b : β) :
    l.foldlM (fun b a => if p a then pure b else f b a) b =
      (l.filter fun a => !p a).foldlM f b := by
  induction l generalizing b with
  | nil => rfl
  | cons a l ih =>
      rw [List.foldlM_cons]
      cases hp : p a with
      | true =>
          rw [List.filter_cons_of_neg (by rw [hp]; decide), if_pos rfl]
          exact ih b
      | false =>
          rw [List.filter_cons_of_pos (by rw [hp]; rfl), List.foldlM_cons, if_neg (by decide)]
          exact bind_congr ih

theorem integer_inj {i j : ℕ} (hi : i < 2 ^ 31) (hj : j < 2 ^ 31)
    (h : Value.integer i = .integer j) : i = j := by
  have hbits := Atom.integer.inj (Value.atom.inj h)
  have hnat := congrArg BitVec.toNat hbits
  rw [BitVec.toNat_ofNat, BitVec.toNat_ofNat] at hnat
  omega

/-- The entries that the loop over `lua_rawlen` packs; there may be holes between them. -/
def Table.slots (t : Table) (i k : ℕ) : List (Value × Value) :=
  (List.range' i k).filterMap fun j =>
    if t.rawgeti j = .nil then none else some (.integer j, t.rawgeti j)

theorem Table.slots_succ (i k : ℕ) : t.slots i (k + 1) =
    (if t.rawgeti i = .nil then [] else [(.integer i, t.rawgeti i)]) ++ t.slots (i + 1) k := by
  unfold slots
  rw [List.range'_succ, List.filterMap_cons]
  split_ifs <;> rfl

theorem Table.slots_add (i k : ℕ) : t.slots i (k + 1) = t.slots i 1 ++ t.slots (i + 1) k := by
  rw [slots_succ, slots_succ]
  simp [slots]

theorem unpackArray_reads {i k : ℕ} {out : List (Data × List UInt8)}
    (hout : List.Forall₂ (fun j (o : Data × List UInt8) => Copies H n (t.rawgeti j) o.1 ∧
      Stands o.2 o.1) (List.range' i k) out)
    (hfields : List.Forall₂ (CopiesPair H n) es fields)
    (hfresh : ∀ j, i ≤ j → j < 2 ^ 31 → .integer j ∉ es.map Prod.fst) (hk : i + k ≤ 2 ^ 31) :
    ∃ fields', List.Forall₂ (CopiesPair H n) (es ++ t.slots i k) fields' ∧
      ∀ fuel rest, (out.map Prod.snd).flatten.length ≤ fuel →
        unpackArray (unpackOne fuel) k i fields ((out.map Prod.snd).flatten ++ rest) =
          .ok (fields', rest) := by
  induction k generalizing i out es fields with
  | zero =>
      obtain rfl := List.forall₂_nil_left_iff.mp hout
      refine ⟨fields, ?_, fun _ _ _ => rfl⟩
      rwa [Table.slots, List.range'_zero, List.filterMap_nil, List.append_nil]
  | succ k ih =>
      rw [List.range'_succ] at hout
      cases hout with
      | @cons _ o _ out ho hout =>
      obtain ⟨d, bytes⟩ := o
      obtain ⟨hcopy, hstands⟩ := ho
      have hi := hfresh i le_rfl (by omega)
      have hset : ∃ fields', rawset fields (.atom (.integer (BitVec.ofNat 64 i))) d =
          .ok fields' ∧ List.Forall₂ (CopiesPair H n) (es ++ t.slots i 1) fields' := by
        rw [Table.slots_succ]
        by_cases hnil : t.rawgeti i = .nil
        · rw [hnil] at hcopy
          obtain rfl := hcopy.of_nil
          refine ⟨fields, rawset_nil hfields hi trivial hcopy.atom, ?_⟩
          rwa [if_pos hnil, List.nil_append, Table.slots, List.range'_zero, List.filterMap_nil,
            List.append_nil]
        · rw [if_neg hnil]
          exact rawset_fresh hfields hi trivial hnil ⟨hcopy.atom, hcopy⟩
      obtain ⟨fields', hset, hfields'⟩ := hset
      obtain ⟨fields'', hall, hrest⟩ := ih hout hfields' (by
        intro j hj hlt hmem
        rw [List.map_append, List.mem_append] at hmem
        rcases hmem with hmem | hmem
        · exact hfresh j (by omega) hlt hmem
        · obtain ⟨e, he, hej⟩ := List.mem_map.mp hmem
          obtain ⟨j', hj', hsome⟩ := List.mem_filterMap.mp he
          obtain rfl : j' = i := by simpa using hj'
          split_ifs at hsome
          obtain rfl := Option.some.inj hsome
          have hij := integer_inj (by omega) hlt hej
          omega) (by omega)
      refine ⟨fields'', ?_, fun fuel rest hfuel => ?_⟩
      · rwa [List.append_assoc, ← Table.slots_add] at hall
      · rw [List.map_cons, List.flatten_cons, List.length_append] at hfuel
        rw [List.map_cons, List.flatten_cons, List.append_assoc, unpackArray,
          hstands.reads fuel _ (by omega), ok_bind]
        simp only
        rw [hset, ok_bind, hrest fuel rest (by omega)]

/-- The bytes of a key and of its value -/
def StandsPair (bytes : List UInt8) (f : Data × Data) : Prop :=
  ∃ x y, bytes = x ++ y ∧ Stands x f.1 ∧ Stands y f.2

theorem unpackPairs_reads {out : List ((Data × Data) × List UInt8)}
    (hout : List.Forall₂ (fun e (o : (Data × Data) × List UInt8) => CopiesPair H n e o.1 ∧
      StandsPair o.2 o.1) es' out)
    (hfields : List.Forall₂ (CopiesPair H n) es fields)
    (hdistinct : ((es ++ es').map Prod.fst).Nodup)
    (hes' : ∀ e ∈ es', e.1.IsKey ∧ e.2 ≠ .nil) :
    ∃ fields', List.Forall₂ (CopiesPair H n) (es ++ es') fields' ∧
      ∀ fuel g rest, (out.map Prod.snd).flatten.length + 1 ≤ fuel → es'.length < g →
        unpackPairs (unpackOne fuel) g fields
          ((out.map Prod.snd).flatten ++ COMBINE_TYPE 0 0 :: rest) = .ok (fields', rest) := by
  induction hout generalizing es fields with
  | nil =>
      refine ⟨fields, by rwa [List.append_nil], fun fuel g rest hfuel hg => ?_⟩
      obtain ⟨g, rfl⟩ := Nat.exists_eq_add_of_le' hg
      change (unpackOne fuel ([COMBINE_TYPE 0 0] ++ rest) >>= _) = _
      rw [stands_nil.reads fuel rest (by simpa using hfuel)]
      rfl
  | @cons e o es' out ho _ ih =>
      obtain ⟨⟨dk, dv⟩, bytes⟩ := o
      obtain ⟨hpair, x, y, rfl, hx, hy⟩ := ho
      obtain ⟨hkey, hv⟩ := hes' e List.mem_cons_self
      have hk : e.1 ∉ es.map Prod.fst := by
        rw [List.map_append, List.map_cons, List.nodup_append'] at hdistinct
        exact fun hmem => hdistinct.2.2 hmem List.mem_cons_self
      obtain ⟨fields', hset, hfields'⟩ := rawset_fresh hfields hk hkey hv hpair
      obtain ⟨fields'', hall, hrest⟩ := ih hfields' (by rwa [List.append_assoc])
        fun e he => hes' e (List.mem_cons_of_mem _ he)
      refine ⟨fields'', by rwa [List.append_assoc] at hall, fun fuel g rest hfuel hg => ?_⟩
      obtain ⟨g, rfl⟩ := Nat.exists_eq_add_of_le' (Nat.lt_of_le_of_lt (Nat.zero_le _) hg)
      rw [List.map_cons, List.flatten_cons, List.length_append, List.length_append] at hfuel
      rw [List.map_cons, List.flatten_cons, List.append_assoc, List.append_assoc, unpackPairs,
        hx.reads fuel _ (by omega), ok_bind]
      have hdk : dk ≠ .nil := by
        rintro rfl
        rw [hpair.1.eq_nil] at hkey
        exact hkey
      cases dk with
      | nil => exact absurd rfl hdk
      | atom | table =>
          simp only
          rw [hy.reads fuel _ (by omega), ok_bind]
          simp only
          rw [hset, ok_bind, hrest fuel g rest (by omega) (by simpa using hg)]

/-- A table is its array size, the values of the array, the pairs and a nil. -/
theorem unpackTable_reads {cookie size : ℕ} {head : List UInt8}
    {items : List (Data × List UInt8)} {pairs : List ((Data × Data) × List UInt8)}
    (hhead : ∀ rest, getArraySize cookie (head ++ rest) = .ok ((size : ℤ), rest))
    (hitems : List.Forall₂ (fun j (o : Data × List UInt8) => Copies H n (t.rawgeti j) o.1 ∧
      Stands o.2 o.1) (List.range' 1 size) items)
    (hpairs : List.Forall₂ (fun e (o : (Data × Data) × List UInt8) => CopiesPair H n e o.1 ∧
      StandsPair o.2 o.1) es pairs)
    (hsize : size < 2 ^ 31) (hdistinct : ((t.slots 1 size ++ es).map Prod.fst).Nodup)
    (hes : ∀ e ∈ es, e.1.IsKey ∧ e.2 ≠ .nil) (hcookie : cookie < 32) :
    ∃ fields, Stands (COMBINE_TYPE 6 cookie :: (head ++ (items.map Prod.snd).flatten ++
        (pairs.map Prod.snd).flatten ++ [COMBINE_TYPE 0 0])) (.table fields) ∧
      List.Forall₂ (CopiesPair H n) (t.slots 1 size ++ es) fields := by
  have hlength : es.length ≤ (pairs.map Prod.snd).flatten.length := by
    clear hes hdistinct
    induction hpairs with
    | nil => exact Nat.zero_le _
    | @cons e o es pairs ho _ ih =>
        obtain ⟨-, x, y, hbytes, hx, -⟩ := ho
        have hpos := hx.pos
        rw [List.map_cons, List.flatten_cons, List.length_append, List.length_cons, hbytes,
          List.length_append]
        omega
  obtain ⟨fields, hfields, harray⟩ := unpackArray_reads hitems .nil
    (fun _ _ _ => List.not_mem_nil) (by omega)
  obtain ⟨fields', hfields', hrest⟩ := unpackPairs_reads hpairs hfields hdistinct hes
  refine ⟨fields', ?_, hfields'⟩
  apply stands_of_push (by decide) hcookie
  intro m rest hm
  simp only [List.length_append, List.length_singleton] at hm
  simp only [List.append_assoc, List.singleton_append]
  unfold pushValue unpackTable
  simp only
  rw [hhead, ok_bind]
  simp only [Int.toNat_natCast]
  rw [harray m _ (by omega), ok_bind]
  simp only
  rw [hrest m (m + 1) rest (by omega) (by omega)]
  rfl

theorem wrote_arraySize (b : WriteBlock) {size : ℕ} (h : size < 2 ^ 31) : ∃ cookie head,
    cookie < 32 ∧ Wrote b (wbArraySize b size) (COMBINE_TYPE 6 (cookie : ℕ) :: head) ∧
      ∀ rest, getArraySize cookie (head ++ rest) = .ok ((size : ℤ), rest) := by
  unfold wbArraySize
  split_ifs with hlarge
  · have hint : (BitVec.ofInt 64 (size : ℤ)).toInt = size := by
      rw [BitVec.toInt_ofInt, Int.bmod_eq_of_le (by omega) (by omega)]
    obtain ⟨cookie, payload, hcookie, hwrote, hread⟩ :=
      wrote_integer (b.push [COMBINE_TYPE 6 (MAX_COOKIE - 1)]) (BitVec.ofInt 64 size)
    refine ⟨31, COMBINE_TYPE 2 cookie :: payload, by decide, (wrote_push b _).trans hwrote,
      fun rest => ?_⟩
    unfold getArraySize
    rw [if_pos (show 31 = MAX_COOKIE - 1 from rfl), List.cons_append, rbRead_cons, ok_bind]
    simp only
    rw [fromLittle_single, toNat_combine (by decide) (by omega), if_neg (by omega),
      show (2 + 8 * cookie) / 8 = cookie by omega, hread, ok_bind]
    simp only
    rw [hint, toInt_of_lt h]
    rfl
  · have hsmall : size < 31 := by
      unfold MAX_COOKIE at hlarge
      omega
    refine ⟨size, [], by omega, wrote_push b _, fun rest => ?_⟩
    unfold getArraySize MAX_COOKIE
    rw [if_neg (by omega)]
    rfl

/-- An entry of a proper table is what `lua_rawgeti` finds. -/
theorem Table.Proper.rawgeti (h : t.Proper) (hmeta : t.metapairs = none) {i : ℕ}
    (hv : v ≠ .nil) : t.rawgeti i = v ↔ (.integer i, v) ∈ t.entries := by
  have hcontent : t.content = t.entries := by rw [content, hmeta]; rfl
  have hdistinct := h.distinct
  rw [hcontent] at hdistinct
  unfold Table.rawgeti
  constructor
  · intro hget
    split at hget
    · next e he =>
        have hkey : e.1 = .integer i := by simpa using List.find?_some he
        have hmem := List.mem_of_find?_eq_some he
        rwa [← hkey, ← hget]
    · exact absurd hget.symm hv
  · intro hmem
    have hsome : (t.entries.find? fun e => e.1 = .integer i) = some (.integer i, v) := by
      cases hfind : t.entries.find? fun e => decide (e.1 = .integer i) with
      | none => exact absurd (List.find?_eq_none.mp hfind _ hmem) (by simp)
      | some e =>
          have hkey : e.1 = .integer i := by simpa using List.find?_some hfind
          rw [List.inj_on_of_nodup_map hdistinct (List.mem_of_find?_eq_some hfind) hmem hkey]
    rw [hsome]

theorem inArray_integer {size i : ℕ} (hi : i < 2 ^ 31) :
    inArray size (.integer i) = true ↔ 0 < i ∧ i ≤ size := by
  have hint : (BitVec.ofNat 64 i).toInt = i := by
    rw [BitVec.toInt_ofNat', Int.bmod_eq_of_le (by omega) (by omega)]
  simp [inArray, Value.integer, hint]

theorem inArray_cases {size : ℕ} (h : inArray size k = true) :
    ∃ i, 0 < i ∧ i ≤ size ∧ k = .integer i := by
  unfold inArray at h
  split at h
  · next x =>
      obtain ⟨hpos, hle⟩ : 0 < x.toInt ∧ x.toInt ≤ size := of_decide_eq_true h
      have hx : BitVec.ofNat 64 x.toInt.toNat = x := by
        rw [BitVec.toInt_eq_toNat_cond] at hpos hle ⊢
        split_ifs at hpos hle ⊢
        · rw [Int.toNat_natCast, BitVec.ofNat_toNat, BitVec.setWidth_eq]
        · omega
      exact ⟨x.toInt.toNat, by omega, by omega, by rw [Value.integer, hx]⟩
  · cases h

/-- The slots of the array and the other entries are all entries. -/
theorem Table.Proper.perm (h : t.Proper) (hmeta : t.metapairs = none) :
    (t.slots 1 t.rawlen ++ t.entries.filter fun e => !inArray t.rawlen e.1).Perm t.entries := by
  have hcontent : t.content = t.entries := by rw [content, hmeta]; rfl
  have hrawlen := h.rawlen
  have hnodup : t.entries.Nodup := .of_map Prod.fst (hcontent ▸ h.distinct)
  have hvalues : ∀ e ∈ t.entries, e.2 ≠ .nil := fun e he => (h.values e (hcontent ▸ he)).1
  refine List.Perm.trans (List.Perm.append_right _ ?_)
    (List.filter_append_perm (fun e => inArray t.rawlen e.1) t.entries)
  apply (List.perm_ext_iff_of_nodup _ (hnodup.filter _)).mpr
  · rintro ⟨k, v⟩
    rw [List.mem_filter]
    constructor
    · intro hmem
      obtain ⟨j, hj, hsome⟩ := List.mem_filterMap.mp hmem
      rw [List.mem_range'_1] at hj
      split_ifs at hsome with hnil
      obtain ⟨rfl, rfl⟩ := Prod.mk.inj (Option.some.inj hsome)
      exact ⟨(h.rawgeti hmeta hnil).mp rfl, (inArray_integer (by omega)).mpr (by omega)⟩
    · rintro ⟨hmem, hin⟩
      obtain ⟨i, hpos, hle, hk⟩ := inArray_cases hin
      obtain rfl : k = .integer i := hk
      have hv := hvalues _ hmem
      have hget := (h.rawgeti hmeta hv).mpr hmem
      apply List.mem_filterMap.mpr
      refine ⟨i, List.mem_range'_1.mpr (by omega), ?_⟩
      rw [hget, if_neg hv]
  · apply List.pairwise_filterMap.mpr
    apply (List.nodup_range' (s := 1) (n := t.rawlen)).imp_of_mem
    intro i j hi hj hne e he e' he' heq
    rw [List.mem_range'_1] at hi hj
    split_ifs at he he'
    obtain rfl := Option.some.inj he
    obtain rfl := Option.some.inj he'
    exact hne (integer_inj (by omega) (by omega) (congrArg Prod.fst heq))

/-- What a step of packing does with a value. -/
def Packs (H : Heap) (n : ℕ) (f : WriteBlock → Value → Except Error WriteBlock) : Prop :=
  ∀ b v b', v.Fits → f b v = .ok b' →
    ∃ d bytes, Wrote b b' bytes ∧ Copies H n v d ∧ Stands bytes d

variable {f : WriteBlock → Value → Except Error WriteBlock}

theorem Packs.pair (hf : Packs H n f) {e : Value × Value} (hk : e.1.Fits) (hv : e.2.Fits)
    (h : packPair f b e = .ok b') :
    ∃ d bytes, Wrote b b' bytes ∧ CopiesPair H n e d ∧ StandsPair bytes d := by
  obtain ⟨b₁, hkey, hvalue⟩ := bind_ok h
  obtain ⟨dk, x, hwrote, hcopy, hstands⟩ := hf b e.1 b₁ hk hkey
  obtain ⟨dv, y, hwrote', hcopy', hstands'⟩ := hf b₁ e.2 b' hv hvalue
  exact ⟨(dk, dv), x ++ y, hwrote.trans hwrote', ⟨hcopy, hcopy'⟩, x, y, rfl, hstands, hstands'⟩

theorem Table.Proper.fits_rawgeti (h : t.Proper) (hmeta : t.metapairs = none) (i : ℕ) :
    (t.rawgeti i).Fits := by
  by_cases hnil : t.rawgeti i = .nil
  · rw [hnil]
    trivial
  · have hmem := (h.rawgeti hmeta hnil).mp rfl
    have hcontent : t.content = t.entries := by rw [content, hmeta]; rfl
    exact (h.values _ (hcontent ▸ hmem)).2

/-- A table is packed as bytes that stand for its copy. -/
theorem Packs.table {address : ℕ} (hf : Packs H n f) (ht : (H address).Proper)
    (h : wbTable f b (H address) = .ok b') : ∃ d bytes, Wrote b b' bytes ∧
      Copies H (n + 1) (.table address) d ∧ Stands bytes d := by
  unfold wbTable at h
  cases hmeta : (H address).metapairs with
  | some pairs =>
      have hcontent : (H address).content = pairs := by rw [Table.content, hmeta]; rfl
      rw [hmeta] at h
      obtain ⟨b₁, hpairs, hnil⟩ := bind_ok h
      cases hnil
      obtain ⟨out, hwrote, hout⟩ := wrote_foldlM (fun e he b b' hpair =>
        hf.pair (ht.keys e (hcontent ▸ he)).2 (ht.values e (hcontent ▸ he)).2 hpair) hpairs
      have hhead : ∀ rest, getArraySize 0 ([] ++ rest) = .ok (((0 : ℕ) : ℤ), rest) := fun _ => rfl
      obtain ⟨fields, hstands, hfields⟩ := unpackTable_reads (t := H address) hhead .nil hout
        (by decide) (hcontent ▸ ht.distinct)
        (fun e he => ⟨(ht.keys e (hcontent ▸ he)).1, (ht.values e (hcontent ▸ he)).1⟩) (by decide)
      refine ⟨.table fields, _, ?_, ⟨pairs, by rw [hcontent], hfields⟩, hstands⟩
      exact ((wrote_push b _).trans hwrote).trans (wrote_push b₁ _)
  | none =>
      have hcontent : (H address).content = (H address).entries := by
        rw [Table.content, hmeta]
        rfl
      have hperm := ht.perm hmeta
      rw [hmeta] at h
      obtain ⟨b₁, harray, hhash⟩ := bind_ok h
      obtain ⟨b₂, hpairs, hnil⟩ := bind_ok hhash
      cases hnil
      rw [toInt_of_lt ht.rawlen] at harray hpairs
      unfold wbTableArray at harray
      rw [Int.toNat_natCast] at harray
      obtain ⟨cookie, head, hcookie, hhead, hread⟩ := wrote_arraySize b ht.rawlen
      obtain ⟨items, hitems, hall⟩ := wrote_foldlM (fun i _ b b' hitem =>
        hf b _ b' (ht.fits_rawgeti hmeta i) hitem) harray
      rw [foldlM_skip] at hpairs
      have hmem : ∀ e ∈ (H address).entries.filter fun e => !inArray (H address).rawlen e.1,
          e ∈ (H address).content := fun e he => hcontent ▸ List.mem_of_mem_filter he
      obtain ⟨out, hwrote, hout⟩ := wrote_foldlM (fun e he b b' hpair =>
        hf.pair (ht.keys e (hmem e he)).2 (ht.values e (hmem e he)).2 hpair) hpairs
      obtain ⟨fields, hstands, hfields⟩ := unpackTable_reads hread hall hout ht.rawlen
        (((hperm.map Prod.fst).nodup_iff).mpr (hcontent ▸ ht.distinct))
        (fun e he => ⟨(ht.keys e (hmem e he)).1, (ht.values e (hmem e he)).1⟩) hcookie
      refine ⟨.table fields, _, ?_, ⟨_, hcontent ▸ hperm, hfields⟩, hstands⟩
      exact ((hhead.trans hitems).trans hwrote).trans (wrote_push b₂ _)

theorem packs_packOne (hH : ∀ address, (H address).Proper) (n : ℕ) : Packs H n (packOne H n) := by
  induction n with
  | zero => exact fun _ _ _ _ h => nomatch h
  | succ n ih =>
      intro b v b' hfits h
      cases v with
      | nil =>
          cases h
          exact ⟨.nil, _, wrote_push b _, trivial, stands_nil⟩
      | other => cases h
      | table address => exact ih.table (hH address) h
      | atom a =>
          cases a with
          | boolean x =>
              cases h
              exact ⟨.atom (.boolean x), _, wrote_push b _, rfl, stands_boolean x⟩
          | integer x =>
              cases h
              obtain ⟨cookie, payload, hcookie, hwrote, hread⟩ := wrote_integer b x
              exact ⟨.atom (.integer x), _, hwrote, rfl, stands_integer hcookie hread⟩
          | real x =>
              cases h
              exact ⟨.atom (.real x), _, wrote_tagged b _ _, rfl, stands_real x⟩
          | userdata p =>
              cases h
              exact ⟨.atom (.userdata p), _, wrote_tagged b _ _, rfl, stands_userdata p⟩
          | string s =>
              have hb : wbString b s (toInt s.length) = b' := Except.ok.inj h
              obtain ⟨bytes, hwrote, hstands⟩ := wrote_string b hfits
              exact ⟨.atom (.string s), bytes, hb ▸ hwrote, rfl, hstands⟩

theorem unpackAll_reads {out : List (Data × List UInt8)} (h : ∀ o ∈ out, Stands o.2 o.1) {n : ℕ}
    (hn : (out.map Prod.snd).flatten.length < n) :
    unpackAll n (out.map Prod.snd).flatten = .ok (out.map Prod.fst) := by
  induction out generalizing n with
  | nil =>
      obtain ⟨n, rfl⟩ := Nat.exists_eq_add_of_le' hn
      rfl
  | cons o out ih =>
      obtain ⟨d, bytes⟩ := o
      obtain ⟨n, rfl⟩ := Nat.exists_eq_add_of_le' (Nat.lt_of_le_of_lt (Nat.zero_le _) hn)
      have hstands : Stands bytes d := h _ List.mem_cons_self
      obtain ⟨t, payload, rfl⟩ := List.exists_cons_of_length_pos hstands.pos
      rw [List.map_cons, List.flatten_cons, List.length_append, List.length_cons] at hn
      have hread := hstands.reads (n + 1) (out.map Prod.snd).flatten
        (by rw [List.length_cons]; omega)
      rw [List.cons_append, unpackOne_cons] at hread
      rw [List.map_cons, List.flatten_cons, List.cons_append, unpackAll]
      simp only
      rw [hread, ok_bind]
      simp only
      rw [ih (n := n) (fun o ho => h o (List.mem_cons_of_mem _ ho)) (by omega)]
      rfl

/-- As long as the bytes that are written can be counted by an `int`, the other side gets copies of
the values, in their order. -/
theorem unpack_pack {values : List Value} {b : WriteBlock} (hH : ∀ address, (H address).Proper)
    (hvalues : ∀ v ∈ values, v.Fits) (hpack : packFrom H values = .ok b)
    (hlen : b.contents.length < 2 ^ 31) : ∃ buffer ds, luaseriPack H values = .ok buffer ∧
      luaseriUnpack buffer = .ok ds ∧ List.Forall₂ (Copies H (MAX_DEPTH + 1)) values ds := by
  obtain ⟨out, hwrote, hout⟩ := wrote_foldlM (fun v hv b b' hone =>
    packs_packOne hH (MAX_DEPTH + 1) b v b' (hvalues v hv) hone) hpack
  obtain ⟨hgood, hcontents⟩ := hwrote good_init
  obtain ⟨hstands, -⟩ : (∀ o ∈ out, Stands o.2 o.1) ∧
      List.Forall₂ (fun o v => Copies H (MAX_DEPTH + 1) v o.1) out values :=
    (List.forall₂_and_left _ _).mp (hout.flip.imp fun _ _ hR => hR.symm)
  obtain ⟨hnonneg, hseri⟩ := seri_contents hgood hlen
  refine ⟨b.contents, out.map Prod.fst, ?_, ?_, ?_⟩
  · unfold luaseriPack
    rw [hpack, ok_bind, if_neg (not_lt.mpr hnonneg), hseri]
    rfl
  · rw [hcontents]
    exact unpackAll_reads hstands (Nat.lt_succ_self _)
  · rw [List.forall₂_map_right_iff]
    exact hout.imp fun _ _ hR => hR.1

/-- A table with two slots, one of them a table, and another entry -/
def sample : Heap := fun address =>
  if address = 0 then ⟨2, [(.atom (.boolean true), .atom (.integer 300)),
    (.integer 2, .table 1), (.integer 1, .atom (.string [97, 98]))], none⟩
  else if address = 1 then
    ⟨0, [(.atom (.string [107]), .atom (.real 0x3ff8000000000000))], none⟩
  else ⟨0, [], none⟩

theorem sample_proper (address : ℕ) : (sample address).Proper := by
  unfold sample
  split_ifs
  · constructor
    · decide
    · simp [Table.content, Value.IsKey, Value.Fits, Value.integer]
    · simp [Table.content, Value.Fits]
    · decide
    · exact fun _ _ => by decide
  · constructor
    · decide
    · simp [Table.content, Value.IsKey, Value.Fits]
    · simp [Table.content, Value.Fits]
    · decide
    · exact fun _ h => absurd rfl h
  · constructor
    · exact List.nodup_nil
    · exact fun _ he => absurd he List.not_mem_nil
    · exact fun _ he => absurd he List.not_mem_nil
    · decide
    · exact fun _ h => absurd rfl h

theorem unpack_pack_sample : ∃ buffer ds, luaseriPack sample [.table 0] = .ok buffer ∧
    luaseriUnpack buffer = .ok ds ∧
      List.Forall₂ (Copies sample (MAX_DEPTH + 1)) [.table 0] ds := by
  have hpack : ∃ b, packFrom sample [.table 0] = .ok b ∧ b.contents.length < 2 ^ 31 :=
    ⟨_, rfl, by decide⟩
  obtain ⟨b, hb, hlen⟩ := hpack
  exact unpack_pack sample_proper (by simp [Value.Fits]) hb hlen

end GameServer.Seri
