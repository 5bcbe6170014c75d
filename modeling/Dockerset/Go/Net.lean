import Dockerset.Go.Bytes
import Dockerset.Logic.EState
import Mathlib.Data.List.TakeWhile

/-!
# Connections and buffered readers

What a connection delivers is the list of what its `Read` calls return, one
non-empty chunk each; then the other side has closed. A stream can be split into
chunks in any way, and a program may depend on the split only through what it
reads ahead.

A `bufio.Reader` holds what it has read and not handed out yet. The size of its
buffer does not appear: a `Read` never returns more than there is room for, so
the chunks are what was really read. `Took` says what every operation of a
reader does: it hands out the next bytes of the stream and has read no chunk
that it did not need.
-/

namespace Dockerset.Go
open Logic

/-- What one `Read` returns. -/
abbrev Chunk := { c : Bytes // c ≠ [] }

abbrev Feed := List Chunk

/-- The bytes that a list of reads returns. -/
def stream (f : Feed) : Bytes := f.flatMap Subtype.val

@[simp] theorem stream_nil : stream [] = [] := rfl

@[simp] theorem stream_cons (c : Chunk) (f : Feed) : stream (c :: f) = c.val ++ stream f :=
  List.flatMap_cons

@[simp] theorem stream_append (f g : Feed) : stream (f ++ g) = stream f ++ stream g :=
  List.flatMap_append

/-! ## `bufio.Reader` -/

/-- What has been read ahead, and what can still be read. -/
structure Reader where
  buf : Bytes
  feed : Feed
deriving DecidableEq

/-- The bytes that a reader will hand out. -/
def Reader.rest (r : Reader) : Bytes := r.buf ++ stream r.feed

/-- The bytes up to and including the first `d`, and those after it. -/
def cut (d : UInt8) (buf : Bytes) : Bytes × Bytes :=
  (buf.takeWhile (· != d) ++ [d], (buf.dropWhile (· != d)).tail)

def readStringFrom (d : UInt8) : Bytes → Feed → Option (Bytes × Reader)
  | buf, [] => if d ∈ buf then some ((cut d buf).1, ⟨(cut d buf).2, []⟩) else none
  | buf, c :: f =>
    if d ∈ buf then some ((cut d buf).1, ⟨(cut d buf).2, c :: f⟩)
    else readStringFrom d (buf ++ c.val) f

/-- `br.ReadString(delim)`; `none` when the stream ends before the delimiter. -/
def Reader.readString (r : Reader) (delim : UInt8) : Option (Bytes × Reader) :=
  readStringFrom delim r.buf r.feed

def readFullFrom (n : Nat) : Bytes → Feed → Option (Bytes × Reader)
  | buf, [] => if n ≤ buf.length then some (buf.take n, ⟨buf.drop n, []⟩) else none
  | buf, c :: f =>
    if n ≤ buf.length then some (buf.take n, ⟨buf.drop n, c :: f⟩)
    else readFullFrom n (buf ++ c.val) f

/-- `io.ReadFull(br, p)` for a `p` of `n` bytes; `none` when the stream is too short. -/
def Reader.readFull (r : Reader) (n : Nat) : Option (Bytes × Reader) := readFullFrom n r.buf r.feed

/-- The reader `r` has handed out `out` and has become `r'`; the last chunk it has
read for this was needed. -/
def Took (r r' : Reader) (out : Bytes) : Prop :=
  ∃ g, r.feed = g ++ r'.feed ∧ r.buf ++ stream g = out ++ r'.buf ∧
    (g ≠ [] → (r.buf ++ stream g.dropLast).length < out.length)

namespace Took

variable {r r' r'' : Reader} {a b : Bytes}

theorem trans (h : Took r r' a) (h' : Took r' r'' b) : Took r r'' (a ++ b) := by
  obtain ⟨g, hf, hb, hn⟩ := h
  obtain ⟨g', hf', hb', hn'⟩ := h'
  refine ⟨g ++ g', ?_, ?_, ?_⟩
  · rw [hf, hf', List.append_assoc]
  · rw [stream_append, ← List.append_assoc, hb, List.append_assoc, hb', List.append_assoc]
  · intro hne
    by_cases hg' : g' = []
    · subst hg'
      rw [List.append_nil] at hne ⊢
      have hlt := hn hne
      simp only [List.length_append] at hlt ⊢
      omega
    · have hlt := hn' hg'
      rw [List.dropLast_append_of_ne_nil hg', stream_append, ← List.append_assoc, hb]
      simp only [List.length_append] at hlt ⊢
      omega

/-- Nothing is lost and nothing comes twice. -/
theorem rest_eq (h : Took r r' a) : r.rest = a ++ r'.rest := by
  obtain ⟨g, hf, hb, -⟩ := h
  unfold Reader.rest
  rw [hf, stream_append, ← List.append_assoc, hb, List.append_assoc]

/-- One more chunk was needed for what was then taken. -/
theorem cons {c : Chunk} {buf : Bytes} {f : Feed} (h : Took ⟨buf ++ c.val, f⟩ r' a)
    (hshort : buf.length < a.length) : Took ⟨buf, c :: f⟩ r' a := by
  obtain ⟨g, hf, hb, hn⟩ := h
  refine ⟨c :: g, by simpa using hf, by simpa using hb, fun _ => ?_⟩
  by_cases hg : g = []
  · subst hg
    simpa using hshort
  · rw [List.dropLast_cons_of_ne_nil hg, stream_cons, ← List.append_assoc]
    exact hn hg

/-- A reader that started empty holds nothing exactly if what it handed out ends
where a read ended. -/
theorem buf_eq_nil_iff {f : Feed} (h : Took ⟨[], f⟩ r' a) :
    r'.buf = [] ↔ ∃ k, stream (f.take k) = a := by
  obtain ⟨g, hf, hb, hn⟩ := h
  simp only [List.nil_append] at hf hb hn
  have hbuf : r'.buf = [] ↔ stream g = a := by
    rw [hb]
    simp
  rw [hbuf]
  constructor
  · intro hg
    refine ⟨g.length, ?_⟩
    rw [hf, List.take_left]
    exact hg
  · rintro ⟨k, hk⟩
    -- a shorter list of reads is too short for `a`, a longer one too long
    rcases Nat.lt_trichotomy k g.length with hlt | heq | hgt
    · have hg : g ≠ [] := by
        rintro rfl
        simp at hlt
      have hpre : stream (g.dropLast.take k) = a := by
        rw [← hk, hf, List.take_append_of_le_length (by omega), List.dropLast_eq_take, List.take_take,
          Nat.min_eq_left (by omega)]
      have hlong := hn hg
      have hsplit := congrArg (fun l => (stream l).length) (List.take_append_drop k g.dropLast)
      simp only [stream_append, List.length_append, hpre] at hsplit
      omega
    · rw [← hk, hf, heq, List.take_left]
    · have hdrop : f.take k = g ++ r'.feed.take (k - g.length) := by
        rw [hf, List.take_append, List.take_of_length_le (by omega)]
      rw [hdrop, stream_append, hb, List.append_assoc] at hk
      have hnil : r'.buf = [] := by
        have hsame : r'.buf ++ stream (r'.feed.take (k - g.length)) = [] := by simpa using hk
        exact (List.append_eq_nil_iff.1 hsame).1
      rw [hb, hnil, List.append_nil]

end Took

section Specs

variable {d : UInt8} {buf : Bytes} {r r' : Reader} {out : Bytes} {n : Nat}

theorem cut_append (h : d ∈ buf) : (cut d buf).1 ++ (cut d buf).2 = buf := by
  induction buf with
  | nil => cases h
  | cons x buf ih =>
    by_cases hx : x = d
    · subst hx
      simp [cut]
    · have hd : d ∈ buf := by simpa [Ne.symm hx] using h
      have hb : (x != d) = true := by simpa using hx
      simpa [cut, List.takeWhile_cons, List.dropWhile_cons, hb] using ih hd

theorem cut_of_eq {u v : Bytes} (hu : d ∉ u) : cut d (u ++ d :: v) = (u ++ [d], v) := by
  have hall : ∀ x ∈ u, (x != d) = true := by
    intro x hx
    simp only [bne_iff_ne, ne_eq]
    rintro rfl
    exact hu hx
  simp [cut, List.takeWhile_append_of_pos hall, List.dropWhile_append_of_pos hall]

theorem took_cut (f : Feed) (hd : d ∈ buf) :
    Took ⟨buf, f⟩ ⟨(cut d buf).2, f⟩ (cut d buf).1 ∧ ∃ u, d ∉ u ∧ (cut d buf).1 = u ++ [d] := by
  refine ⟨⟨[], rfl, ?_, by simp⟩, buf.takeWhile (· != d), ?_, rfl⟩
  · rw [cut_append hd, stream_nil, List.append_nil]
  · intro hmem
    simpa using List.mem_takeWhile_imp hmem

/-- **`ReadString`** returns the next line and reads no further than it has to. -/
theorem took_readStringFrom {f : Feed} (h : readStringFrom d buf f = some (out, r')) :
    Took ⟨buf, f⟩ r' out ∧ ∃ u, d ∉ u ∧ out = u ++ [d] := by
  induction f generalizing buf with
  | nil =>
    rw [readStringFrom] at h
    split at h
    · next hd =>
      cases h
      exact took_cut [] hd
    · cases h
  | cons c f ih =>
    rw [readStringFrom] at h
    split at h
    · next hd =>
      cases h
      exact took_cut (c :: f) hd
    · next hd =>
      obtain ⟨htook, u, hu, hout⟩ := ih h
      refine ⟨htook.cons ?_, u, hu, hout⟩
      -- otherwise the line would have been in the buffer
      by_contra hlong
      have hrest : (buf ++ c.val) ++ stream f = out ++ r'.rest := htook.rest_eq
      have hpre : out <+: buf := by
        apply List.prefix_of_prefix_length_le (List.prefix_append out r'.rest) _ (by omega)
        rw [← hrest, List.append_assoc]
        exact List.prefix_append _ _
      apply hd
      apply hpre.subset
      rw [hout]
      simp

theorem readStringFrom_eq {f : Feed} {u v : Bytes} (hu : d ∉ u) (h : buf ++ stream f = u ++ d :: v) :
    ∃ r', readStringFrom d buf f = some (u ++ [d], r') := by
  have first : ∀ out r', readStringFrom d buf f = some (out, r') → out = u ++ [d] := by
    intro out r' hrun
    obtain ⟨htook, u', hu', hout⟩ := took_readStringFrom hrun
    have hrest : buf ++ stream f = out ++ r'.rest := htook.rest_eq
    have hcut := cut_of_eq (v := r'.rest) hu'
    rw [hout] at hrest ⊢
    rw [List.append_assoc, List.singleton_append, h] at hrest
    rw [← hrest, cut_of_eq hu] at hcut
    exact (congrArg Prod.fst hcut).symm
  have some_of : ∃ out r', readStringFrom d buf f = some (out, r') := by
    clear first
    induction f generalizing buf with
    | nil =>
      rw [readStringFrom, if_pos]
      · exact ⟨_, _, rfl⟩
      · rw [stream_nil, List.append_nil] at h
        simp [h]
    | cons c f ih =>
      rw [readStringFrom]
      split
      · exact ⟨_, _, rfl⟩
      · exact ih (by simpa using h)
  obtain ⟨out, r', hrun⟩ := some_of
  exact ⟨r', by rw [hrun, first out r' hrun]⟩

/-- **`io.ReadFull`** on a reader. -/
theorem took_readFullFrom {f : Feed} (h : readFullFrom n buf f = some (out, r')) :
    Took ⟨buf, f⟩ r' out ∧ out.length = n := by
  have here : ∀ (buf : Bytes) (f : Feed), n ≤ buf.length →
      Took ⟨buf, f⟩ ⟨buf.drop n, f⟩ (buf.take n) ∧ (buf.take n).length = n := by
    intro buf f hn
    refine ⟨⟨[], rfl, by simp, by simp⟩, ?_⟩
    rw [List.length_take]
    omega
  induction f generalizing buf with
  | nil =>
    rw [readFullFrom] at h
    split at h
    · next hn =>
      cases h
      exact here buf [] hn
    · cases h
  | cons c f ih =>
    rw [readFullFrom] at h
    split at h
    · next hn =>
      cases h
      exact here buf (c :: f) hn
    · next hn =>
      obtain ⟨htook, hlen⟩ := ih h
      exact ⟨htook.cons (by omega), hlen⟩

/-- A string that ends with its only `d`. -/
def Delimited (d : UInt8) (l : Bytes) : Prop := ∃ u, d ∉ u ∧ l = u ++ [d]

/-- Where the first such string of a stream ends is no matter of choice. -/
theorem Delimited.inj {l l' a b : Bytes} (h : Delimited d l) (h' : Delimited d l')
    (heq : l ++ a = l' ++ b) : l = l' ∧ a = b := by
  obtain ⟨u, hu, rfl⟩ := h
  obtain ⟨u', hu', rfl⟩ := h'
  rw [List.append_assoc, List.append_assoc, List.singleton_append, List.singleton_append] at heq
  have hcut := congrArg (cut d) heq
  rw [cut_of_eq hu, cut_of_eq hu'] at hcut
  exact Prod.mk.inj hcut

theorem Reader.took_readString (h : r.readString d = some (out, r')) :
    Took r r' out ∧ Delimited d out :=
  took_readStringFrom h

theorem Reader.readString_eq {l v : Bytes} (hl : Delimited d l) (h : r.rest = l ++ v) :
    ∃ r', r.readString d = some (l, r') := by
  obtain ⟨u, hu, rfl⟩ := hl
  exact readStringFrom_eq hu (by simpa [Reader.rest] using h)

theorem Reader.took_readFull (h : r.readFull n = some (out, r')) : Took r r' out ∧ out.length = n :=
  took_readFullFrom h

theorem Took.rest_lt (h : Took r r' out) (hout : out ≠ []) : r'.rest.length < r.rest.length := by
  rw [h.rest_eq, List.length_append]
  have hpos := List.length_pos_iff.2 hout
  omega

theorem Delimited.ne_nil {l : Bytes} (h : Delimited d l) : l ≠ [] := by
  obtain ⟨u, -, rfl⟩ := h
  simp

end Specs

/-! ## Connections -/

/-- The next `n` bytes of a list of reads, as `io.ReadFull` collects them from the
connection itself. The rest of a chunk is left for the next `Read`. -/
def readN : Feed → Nat → Option (Bytes × Feed)
  | [], n => if n = 0 then some ([], []) else none
  | c :: f, n =>
    if h : n < c.val.length then
      some (c.val.take n, ⟨c.val.drop n, by simpa [List.drop_eq_nil_iff] using h⟩ :: f)
    else (readN f (n - c.val.length)).map fun p => (c.val ++ p.1, p.2)

theorem readN_eq_some {f f' : Feed} {n : Nat} {out : Bytes} (h : readN f n = some (out, f')) :
    out.length = n ∧ stream f = out ++ stream f' := by
  induction f generalizing n out with
  | nil =>
    rw [readN] at h
    split at h
    · next hn =>
      cases h
      exact ⟨hn.symm, rfl⟩
    · cases h
  | cons c f ih =>
    rw [readN] at h
    split at h
    · next hlt =>
      cases h
      refine ⟨?_, ?_⟩
      · rw [List.length_take]
        omega
      · rw [stream_cons, stream_cons, ← List.append_assoc, List.take_append_drop]
    · next hle =>
      obtain ⟨⟨out', f''⟩, hrec, heq⟩ := Option.map_eq_some_iff.1 h
      cases heq
      obtain ⟨hlen, hstream⟩ := ih hrec
      refine ⟨?_, ?_⟩
      · rw [List.length_append, hlen]
        omega
      · rw [stream_cons, hstream, List.append_assoc]

theorem readN_isSome {f : Feed} {n : Nat} : (readN f n).isSome = true ↔ n ≤ (stream f).length := by
  induction f generalizing n with
  | nil =>
    rw [readN]
    split <;> simp_all
  | cons c f ih =>
    rw [readN]
    split
    · next hlt =>
      simp only [Option.isSome_some, stream_cons, List.length_append, true_iff]
      omega
    · next hle =>
      rw [Option.isSome_map, ih, stream_cons, List.length_append]
      omega

/-- One side of a connection: whether it can be made at all, what its reads will
return, how many of its writes will succeed (all of them if there is no number),
and what has been written. -/
structure Conn where
  refused : Bool
  feed : Feed
  room : Option Nat
  written : List Bytes
deriving DecidableEq

inductive NetErr where
  | uri
  | dial
  | write
  | eof
  | text (s : Bytes)
deriving DecidableEq

abbrev NetM := EStateM NetErr Conn

/-- `net.DialTimeout`, or `tls.DialWithDialer`. -/
def dialConn : NetM Unit := do
  if (← get).refused then throw .dial

/-- `c.Write(b)`. -/
def write (b : Bytes) : NetM Unit := fun c =>
  if c.room = some 0 then .error .write c
  else .ok () { c with room := c.room.map (· - 1), written := c.written ++ [b] }

/-- `io.ReadFull(c, p)` for a `p` of `n` bytes. -/
def readFull (n : Nat) : NetM Bytes := fun c =>
  match readN c.feed n with
  | some (out, f) => .ok out { c with feed := f }
  | none => .error .eof { c with feed := [] }

/-- An operation of a `bufio.Reader` on the connection, which holds `buf`: the
result, and what the reader holds then. -/
def withReader {α : Type} (op : Reader → Option (α × Reader)) (buf : Bytes) : NetM (α × Bytes) :=
  fun c =>
    match op ⟨buf, c.feed⟩ with
    | some (a, r) => .ok (a, r.buf) { c with feed := r.feed }
    | none => .error .eof { c with feed := [] }

/-- `io.Copy(dst, c)`, where the reads of `c` return `f`: it goes on until the
end of the stream or a write that fails. -/
def ioCopyConn (dst : Conn) : Feed → Conn
  | [] => dst
  | c :: f =>
    match (write c.val).run dst with
    | .ok _ dst => ioCopyConn dst f
    | .error _ dst => dst

/-- `_, _ = c.Write(b)`. -/
def tryWrite (b : Bytes) (c : Conn) : Conn := after (write b) c

/-- The connection can be made and takes `n` more writes. -/
def Conn.Open (c : Conn) (n : Nat) : Prop := c.refused = false ∧ ∀ k ∈ c.room, n ≤ k

/-- One write was done. -/
def Conn.wrote (c : Conn) (b : Bytes) : Conn :=
  { c with room := c.room.map (· - 1), written := c.written ++ [b] }

@[simp] theorem Conn.wrote_feed (c : Conn) (b : Bytes) : (c.wrote b).feed = c.feed := rfl

@[simp] theorem Conn.wrote_written (c : Conn) (b : Bytes) :
    (c.wrote b).written = c.written ++ [b] := rfl

theorem write_eq {c : Conn} {b : Bytes} :
    (write b).run c = if c.room = some 0 then .error .write c else .ok () (c.wrote b) := rfl

theorem Conn.wrote_open {c : Conn} {b : Bytes} {n : Nat} (hroom : c.room ≠ some 0) :
    (c.wrote b).Open n ↔ c.Open (n + 1) := by
  unfold Conn.Open Conn.wrote
  cases hr : c.room with
  | none => simp
  | some k =>
    have hk : k ≠ 0 := by
      rintro rfl
      exact hroom hr
    simp only [Option.map_some, Option.mem_def, Option.some.injEq, forall_eq']
    apply and_congr_right
    intro _
    omega

theorem tryWrite_of_room {c : Conn} {b : Bytes} (h : (tryWrite b c).room ≠ some 0) :
    c.room ≠ some 0 ∧ tryWrite b c = c.wrote b := by
  by_cases hfull : c.room = some 0
  · have hsame : tryWrite b c = c := by rw [tryWrite, after, write_eq, if_pos hfull]
    rw [hsame] at h
    exact absurd hfull h
  · exact ⟨hfull, after_of_ok (by rw [write_eq, if_neg hfull])⟩

theorem ioCopyConn_of_room {f : Feed} {dst : Conn} (h : (ioCopyConn dst f).room ≠ some 0) :
    dst.room ≠ some 0 ∧ (ioCopyConn dst f).written.flatten = dst.written.flatten ++ stream f := by
  induction f generalizing dst with
  | nil => exact ⟨h, by simp [ioCopyConn]⟩
  | cons c f ih =>
    rw [ioCopyConn, write_eq] at h ⊢
    by_cases hfull : dst.room = some 0
    · rw [if_pos hfull] at h
      exact absurd hfull h
    · rw [if_neg hfull] at h ⊢
      obtain ⟨-, hrest⟩ := ih h
      refine ⟨hfull, ?_⟩
      change (ioCopyConn (dst.wrote c.val) f).written.flatten = _
      rw [hrest, Conn.wrote_written]
      simp

section Programs

variable {α : Type} {Q : α → Conn → Prop} {E : NetErr → Conn → Prop} {c : Conn}

theorem wp_dialConn {Q : Unit → Conn → Prop} (hok : c.refused = false → Q () c)
    (herr : c.refused = true → E .dial c) : WP dialConn Q E c := by
  unfold dialConn
  rw [WP.bind_iff, WP.get_iff]
  split
  · next h => exact herr h
  · next h => exact hok (by simpa using h)

theorem wp_write {b : Bytes} {Q : Unit → Conn → Prop} (hok : c.room ≠ some 0 → Q () (c.wrote b))
    (herr : c.room = some 0 → E .write c) : WP (write b) Q E c := by
  by_cases h : c.room = some 0
  · exact .of_error (by rw [EStateM.run, write, if_pos h]) (herr h)
  · exact .of_ok (by rw [EStateM.run, write, if_neg h]; rfl) (hok h)

theorem wp_dial_write {α : Type} {b : Bytes} {k : NetM α} {Q : α → Conn → Prop}
    (hok : c.Open 1 → c.room ≠ some 0 → WP k Q E (c.wrote b)) (herr : ∀ e, ¬ c.Open 1 → E e c) :
    WP (dialConn >>= fun _ => write b >>= fun _ => k) Q E c := by
  rw [WP.bind_iff]
  apply wp_dialConn
  · intro hmade
    rw [WP.bind_iff]
    apply wp_write
    · intro hroom
      exact hok ((Conn.wrote_open (b := b) hroom).1 ⟨hmade, fun k _ => Nat.zero_le k⟩) hroom
    · intro hroom
      apply herr
      intro hopen
      have hle := hopen.2 0 hroom
      omega
  · intro hrefused
    apply herr
    intro hopen
    rw [hopen.1] at hrefused
    cases hrefused

theorem wp_readFull {n : Nat} {Q : Bytes → Conn → Prop}
    (hok : ∀ out f, out.length = n → stream c.feed = out ++ stream f → Q out { c with feed := f })
    (herr : (stream c.feed).length < n → E .eof { c with feed := [] }) : WP (readFull n) Q E c := by
  cases hr : readN c.feed n with
  | some p =>
    obtain ⟨out, f⟩ := p
    obtain ⟨hlen, hstream⟩ := readN_eq_some hr
    exact .of_ok (by rw [EStateM.run, readFull, hr]) (hok out f hlen hstream)
  | none =>
    have hshort : ¬ n ≤ (stream c.feed).length := by
      rw [← readN_isSome, hr]
      simp
    exact .of_error (by rw [EStateM.run, readFull, hr]) (herr (by omega))

theorem wp_withReader {op : Reader → Option (α × Reader)} {buf : Bytes} {Q : α × Bytes → Conn → Prop}
    (hok : ∀ a r, op ⟨buf, c.feed⟩ = some (a, r) → Q (a, r.buf) { c with feed := r.feed })
    (herr : op ⟨buf, c.feed⟩ = none → E .eof { c with feed := [] }) : WP (withReader op buf) Q E c := by
  cases hr : op ⟨buf, c.feed⟩ with
  | some p => exact .of_ok (by rw [EStateM.run, withReader, hr]) (hok p.1 p.2 hr)
  | none => exact .of_error (by rw [EStateM.run, withReader, hr]) (herr hr)

end Programs

end Dockerset.Go
