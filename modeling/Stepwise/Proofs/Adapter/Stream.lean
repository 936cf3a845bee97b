import Stepwise.Adapter.Frame
import Stepwise.Proofs.Adapter.Fields
import Stepwise.Proofs.Json.Exact

/-! What is written to a stream is read from it again. Every message ends where its length says,
in bytes and not in characters, so that the next one begins in its place; header lines that tell
no length may stand around the one that does. -/

namespace Stepwise

namespace Frame

variable {l : String} {m : Message}

def bytes (s : String) : List UInt8 :=
  s.toUTF8.data.toList

theorem bytes_append (s t : String) : bytes (s ++ t) = bytes s ++ bytes t := by
  simp [bytes]

theorem length_bytes (s : String) : (bytes s).length = s.utf8ByteSize := by
  simp [bytes]

theorem bytes_eq_flatMap (s : String) : bytes s = s.toList.flatMap String.utf8EncodeChar := by
  simp [bytes, ← String.utf8Encode_toList, List.utf8Encode]

theorem text?_bytes (s : String) : text? (bytes s) = some s := by
  unfold text? String.fromUTF8? bytes
  rw [Array.toArray_toList, String.toUTF8_eq_toByteArray, dif_pos s.isValidUTF8]
  rfl

theorem ne_lineFeed_of_le {n : Nat} (hn : 128 ≤ n) (hn' : n < 256) : lineFeed ≠ UInt8.ofNat n := by
  intro h
  have := congrArg UInt8.toNat h
  simp [lineFeed] at this
  omega

theorem eq_newline_of_mem {c : Char} (h : lineFeed ∈ String.utf8EncodeChar c) : c = '\n' := by
  unfold String.utf8EncodeChar at h
  dsimp only at h
  split at h
  · next hsmall =>
    have hvalue := congrArg UInt8.toNat (List.mem_singleton.1 h)
    simp only [lineFeed, UInt8.toNat_ofNat'] at hvalue
    refine Char.ext (UInt32.toNat_inj.1 ?_)
    change c.val.toNat = 10
    change 10 = c.val.toNat % 256 at hvalue
    omega
  · exfalso
    split at h
    · simp only [List.mem_cons, List.not_mem_nil, or_false] at h
      rcases h with h | h <;> exact ne_lineFeed_of_le (by omega) (by omega) h
    split at h
    · simp only [List.mem_cons, List.not_mem_nil, or_false] at h
      rcases h with h | h | h <;> exact ne_lineFeed_of_le (by omega) (by omega) h
    · simp only [List.mem_cons, List.not_mem_nil, or_false] at h
      rcases h with h | h | h | h <;> exact ne_lineFeed_of_le (by omega) (by omega) h

theorem lineFeed_notMem_bytes (hl : '\n' ∉ l.toList) : lineFeed ∉ bytes l := by
  rw [bytes_eq_flatMap]
  intro h
  obtain ⟨c, hc, hmem⟩ := List.mem_flatMap.1 h
  exact hl (eq_newline_of_mem hmem ▸ hc)

def headerLine (l : String) : String :=
  l ++ "\n"

theorem splitLine_append_lineFeed {bs : List UInt8} (h : lineFeed ∉ bs) (rest : List UInt8) :
    splitLine (bs ++ lineFeed :: rest) = (bs ++ [lineFeed], rest) := by
  induction bs with
  | nil => rfl
  | cons b bs ih =>
    obtain ⟨hb, hbs⟩ := not_or.1 (mt List.mem_cons.2 h)
    rw [List.cons_append, splitLine, if_neg (Ne.symm hb), ih hbs]
    rfl

theorem bytes_line (l : String) : bytes (headerLine l) = bytes l ++ [lineFeed] :=
  bytes_append l "\n"

theorem splitLine_line (hl : '\n' ∉ l.toList) (rest : List UInt8) :
    splitLine (bytes (headerLine l) ++ rest) = (bytes (headerLine l), rest) := by
  rw [bytes_line, List.append_assoc, List.singleton_append,
    splitLine_append_lineFeed (lineFeed_notMem_bytes hl)]

theorem readHeader_line (length : Option Nat) (hl : '\n' ∉ l.toList) (rest : List UInt8) :
    readHeader length (bytes (headerLine l) ++ rest) =
      match Header.ofLine (headerLine l) with
      | .error e => (.error e, rest)
      | .ok .blank => if length.isSome then (.ok length, rest) else readHeader none rest
      | .ok (.length n) => readHeader (some n) rest
      | .ok .other => readHeader length rest := by
  have hsplit := splitLine_line hl rest
  have hne : bytes (headerLine l) ++ rest ≠ [] := by simp [bytes_line]
  obtain ⟨b, bs, hbs⟩ := List.exists_cons_of_ne_nil hne
  rw [hbs] at hsplit ⊢
  rw [readHeader, hsplit, text?_bytes]
  rfl

theorem withoutEnd_append {cs : List Char} (hcs : cs.getLast?.all (fun c => !isLineEnd c))
    (ends : List Char) (hends : ends.all isLineEnd) :
    withoutEnd (String.ofList (cs ++ ends)) = cs := by
  unfold withoutEnd
  rw [String.toList_ofList, List.reverse_append,
    List.dropWhile_append_of_pos (fun c hc => List.all_eq_true.1 hends c (List.mem_reverse.1 hc))]
  cases hrev : cs.reverse with
  | nil => exact (List.reverse_eq_nil_iff.1 hrev).symm
  | cons c more =>
    have hlast : cs.getLast? = some c := by
      rw [← List.head?_reverse, hrev]
      rfl
    rw [hlast] at hcs
    rw [List.dropWhile_cons_of_neg (by simpa using hcs), ← hrev, List.reverse_reverse]

def headerName (cs : List Char) : String :=
  String.ofList (Text.trim (cs.takeWhile (· ≠ ':')))

structure IsOther (l : String) : Prop where
  single : '\n' ∉ l.toList
  full : ∃ c ∈ l.toList, c ≠ '\r'
  named : ':' ∈ l.toList → (headerName l.toList).toLower ≠ lengthName

theorem isOther_of_name {l : String} (hsingle : '\n' ∉ l.toList) (hfull : ∃ c ∈ l.toList, c ≠ '\r')
    (hname : (Text.trim (l.toList.takeWhile (· ≠ ':'))).map Char.toLower ≠ lengthName.toList) :
    IsOther l where
  single := hsingle
  full := hfull
  named _ h := hname (by
    rw [← h, String.toLower, String.toList_map, headerName, String.toList_ofList])

theorem withoutEnd_line (l : String) : withoutEnd (headerLine l) = withoutEnd l := by
  simp [withoutEnd, headerLine, isLineEnd]

theorem withoutEnd_append_ends (l : String) :
    ∃ ends, l.toList = withoutEnd l ++ ends ∧ ∀ c ∈ ends, isLineEnd c = true := by
  refine ⟨(l.toList.reverse.takeWhile isLineEnd).reverse, ?_, fun c hc => ?_⟩
  · rw [withoutEnd, ← List.reverse_append, List.takeWhile_append_dropWhile, List.reverse_reverse]
  · exact List.mem_takeWhile_imp (List.mem_reverse.1 hc)

theorem headerName_append {cs ends : List Char} (h : ':' ∈ cs) :
    headerName (cs ++ ends) = headerName cs := by
  rw [headerName, List.takeWhile_append, if_neg, headerName]
  intro hlength
  have hall := List.takeWhile_prefix (p := (· ≠ ':')) (l := cs) |>.eq_of_length hlength
  simpa using List.takeWhile_eq_self_iff.1 hall _ h

theorem ofLine_other (h : IsOther l) : Header.ofLine (headerLine l) = .ok .other := by
  obtain ⟨ends, hl, hends⟩ := withoutEnd_append_ends l
  have hmem {c : Char} (hc : c ∈ l.toList) (hend : isLineEnd c = false) : c ∈ withoutEnd l := by
    rw [hl, List.mem_append] at hc
    refine hc.resolve_right fun hc => ?_
    rw [hends c hc] at hend
    cases hend
  obtain ⟨c, hc, hne⟩ := h.full
  have hfull : withoutEnd l ≠ [] := by
    refine List.ne_nil_of_mem (hmem hc ?_)
    have hsingle : c ≠ '\n' := fun h' => h.single (h' ▸ hc)
    simp [isLineEnd, hne, hsingle]
  unfold Header.ofLine
  rw [withoutEnd_line]
  split
  · next hnil => exact absurd hnil hfull
  · split
    · next colon value hdrop =>
      have hcolon : ':' ∈ withoutEnd l := by
        by_contra hno
        have hnil : (withoutEnd l).dropWhile (· ≠ ':') = [] :=
          List.dropWhile_eq_nil_iff.2 fun c hc => decide_eq_true (fun h' => hno (h' ▸ hc))
        rw [hnil] at hdrop
        cases hdrop
      have hname := h.named (hl ▸ List.mem_append_left _ hcolon)
      rw [hl, headerName_append hcolon] at hname
      exact if_neg hname
    · rfl

def lengthLine (n : Nat) : String :=
  "Content-Length: " ++ toString n ++ "\r"

theorem toList_lengthLine (n : Nat) :
    (lengthLine n).toList = "Content-Length: ".toList ++ (Nat.toDigits 10 n ++ ['\r']) := by
  have hn : (toString n).toList = Nat.toDigits 10 n := Nat.toList_repr
  delta lengthLine
  rw [String.toList_append, String.toList_append, hn, List.append_assoc]
  rfl

theorem isDigit_of_mem_toDigits {n : Nat} {c : Char} (hc : c ∈ Nat.toDigits 10 n) :
    c.isDigit = true :=
  Nat.isDigit_of_mem_toDigits (by decide) (by decide) hc

theorem isBlank_of_isDigit {c : Char} (hc : c.isDigit = true) : Text.isBlank c = false := by
  have hrange : 48 ≤ c.toNat ∧ c.toNat ≤ 57 := by
    simpa [Char.isDigit, UInt32.le_iff_toNat_le] using hc
  simp [Text.isBlank, Text.blankRanges]
  omega

theorem isLineEnd_of_isDigit {c : Char} (hc : c.isDigit = true) : isLineEnd c = false := by
  refine Bool.or_eq_false_iff.2 ⟨beq_eq_false_iff_ne.2 ?_, beq_eq_false_iff_ne.2 ?_⟩ <;>
    · rintro rfl
      cases hc

theorem trim_digits {cs : List Char} (h : ∀ c ∈ cs, c.isDigit = true) :
    Text.trim (' ' :: cs) = cs := by
  have hdrop {ds : List Char} (hds : ∀ c ∈ ds, c.isDigit = true) :
      ds.dropWhile Text.isBlank = ds := by
    cases ds with
    | nil => rfl
    | cons d ds =>
      exact List.dropWhile_cons_of_neg (by simp [isBlank_of_isDigit (hds d List.mem_cons_self)])
  have hstart : Text.trimStart (' ' :: cs) = cs := hdrop h
  rw [Text.trim, hstart, Text.trimEnd, hdrop fun c hc => h c (List.mem_reverse.1 hc),
    List.reverse_reverse]

theorem readCount?_toDigits {n : Nat} (hn : n ≤ Number.greatestCount) :
    Number.readCount? (Nat.toDigits 10 n) = some n := by
  have hall : (Nat.toDigits 10 n).all Char.isDigit = true :=
    List.all_eq_true.2 fun _ => isDigit_of_mem_toDigits
  have hvalue : Number.ofDigits (Nat.toDigits 10 n) = n := Nat.ofDigitChars_ten_toDigits
  obtain ⟨d, ds, hdigits⟩ := List.exists_cons_of_ne_nil (Nat.toDigits_ne_nil (n := n) (b := 10))
  have hplus : d ≠ '+' := by
    rintro rfl
    have := isDigit_of_mem_toDigits (hdigits ▸ List.mem_cons_self : '+' ∈ Nat.toDigits 10 n)
    cases this
  unfold Number.readCount?
  rw [hdigits] at hall hvalue ⊢
  split
  · next h => exact absurd (List.cons.inj h).1 hplus
  · simp only [hvalue, hall, List.isEmpty_cons, Bool.not_true, Bool.or_self, Bool.false_eq_true,
      if_false, if_pos hn]

theorem newline_notMem_lengthLine (n : Nat) : '\n' ∉ (lengthLine n).toList := by
  have hdigits : '\n' ∉ Nat.toDigits 10 n := by
    intro h
    cases isDigit_of_mem_toDigits h
  rw [toList_lengthLine, List.mem_append, List.mem_append]
  exact not_or.2 ⟨by decide, not_or.2 ⟨hdigits, by decide⟩⟩

theorem ofLine_lengthLine {n : Nat} (hn : n ≤ Number.greatestCount) :
    Header.ofLine (headerLine (lengthLine n)) = .ok (.length n) := by
  have hdigit : ∀ c ∈ Nat.toDigits 10 n, c.isDigit = true := fun _ => isDigit_of_mem_toDigits
  have hwithout : withoutEnd (lengthLine n) = "Content-Length: ".toList ++ Nat.toDigits 10 n := by
    have hlast : ("Content-Length: ".toList ++ Nat.toDigits 10 n).getLast?.all
        fun c => !isLineEnd c := by
      rw [List.getLast?_append_of_ne_nil _ Nat.toDigits_ne_nil,
        List.getLast?_eq_some_getLast Nat.toDigits_ne_nil, Option.all_some,
        isLineEnd_of_isDigit (hdigit _ (List.getLast_mem _)), Bool.not_false]
    rw [← withoutEnd_append hlast ['\r'] rfl, List.append_assoc, ← toList_lengthLine,
      String.ofList_toList]
  have htake : ("Content-Length: ".toList ++ Nat.toDigits 10 n).takeWhile (· ≠ ':') =
    "Content-Length".toList := rfl
  have hdrop : ("Content-Length: ".toList ++ Nat.toDigits 10 n).dropWhile (· ≠ ':') =
    ':' :: ' ' :: Nat.toDigits 10 n := rfl
  have hname : (String.ofList (Text.trim "Content-Length".toList)).toLower = lengthName := by
    rw [← String.toList_inj, String.toLower, String.toList_map, String.toList_ofList]
    decide
  unfold Header.ofLine
  rw [withoutEnd_line, hwithout]
  split
  · next hnil => simp at hnil
  · simp only [htake, hdrop, hname, if_true, trim_digits hdigit, readCount?_toDigits hn]

def lines (ls : List String) : String :=
  String.join (ls.map headerLine)

theorem readHeader_lines {ls : List String} (h : ∀ l ∈ ls, IsOther l) (length : Option Nat)
    (rest : List UInt8) :
    readHeader length (bytes (lines ls) ++ rest) = readHeader length rest := by
  induction ls with
  | nil => rfl
  | cons l ls ih =>
    obtain ⟨hl, hls⟩ := List.forall_mem_cons.1 h
    have hlines : lines (l :: ls) = headerLine l ++ lines ls := by
      rw [lines, List.map_cons, String.join_cons]
      rfl
    rw [hlines, bytes_append, List.append_assoc, readHeader_line length hl.single,
      ofLine_other hl]
    exact ih hls

/-- A message with other lines of the header before and after the one that tells its length. -/
structure Envelope where
  before : List String
  after : List String
  message : Message

namespace Envelope

def write (e : Envelope) : String :=
  let body := e.message.toJson.text
  lines e.before ++ (headerLine (lengthLine body.utf8ByteSize) ++
    (lines e.after ++ (headerLine "\r" ++ body)))

def bare (m : Message) : Envelope := ⟨[], [], m⟩

theorem write_bare (m : Message) : (bare m).write = Frame.write m := by
  have hends : "\r\n\r\n" = "\r" ++ ("\n" ++ ("\r" ++ "\n")) := by decide
  change "" ++ (headerLine (lengthLine m.toJson.text.utf8ByteSize) ++
      ("" ++ (headerLine "\r" ++ m.toJson.text))) =
    "Content-Length: " ++ toString m.toJson.text.utf8ByteSize ++ "\r\n\r\n" ++ m.toJson.text
  generalize m.toJson.text = body
  delta lengthLine headerLine
  rw [String.empty_append, String.empty_append, hends]
  simp only [String.append_assoc]

/-- The other lines tell no length. -/
structure IsProper (e : Envelope) : Prop where
  before : ∀ l ∈ e.before, IsOther l
  after : ∀ l ∈ e.after, IsOther l

theorem isProper_bare (m : Message) : (bare m).IsProper :=
  ⟨fun _ h => absurd h List.not_mem_nil, fun _ h => absurd h List.not_mem_nil⟩

end Envelope

/-- A message that can be framed: what it carries is something in its canonical form, and its
length can be told. -/
structure IsProper (m : Message) : Prop where
  content : m.content.IsProper
  size : m.toJson.text.utf8ByteSize ≤ Number.greatestCount

/-- The data of a message is read as it was written. -/
def Regained (m : Message) : Prop :=
  Json.read? m.toJson.text.toList = some m.toJson

theorem regained_of_isExact (h : m.toJson.isExact Json.maxDepth = true) : Regained m :=
  Json.read?_text h

theorem decode_text (hm : m.content.IsProper) (hjson : Regained m) :
    decode (bytes m.toJson.text) = .ok m := by
  rw [decode, text?_bytes, Option.bind_some, hjson, Option.bind_some, Message.ofJson?_toJson hm]
  rfl

theorem readHeader_write {e : Envelope} (he : e.IsProper) (hm : IsProper e.message)
    (rest : List UInt8) :
    readHeader none (bytes e.write ++ rest) =
      (.ok (some e.message.toJson.text.utf8ByteSize), bytes e.message.toJson.text ++ rest) := by
  simp only [Envelope.write, bytes_append, List.append_assoc]
  rw [readHeader_lines he.before, readHeader_line none (newline_notMem_lengthLine _),
    ofLine_lengthLine hm.size]
  dsimp only
  rw [readHeader_lines he.after, readHeader_line _ (by decide)]
  rfl

theorem read_write {e : Envelope} (he : e.IsProper) (hm : IsProper e.message)
    (hjson : Regained e.message) (rest : List UInt8) :
    read (bytes e.write ++ rest) = (.ok (some e.message), rest) := by
  have htake : (bytes e.message.toJson.text ++ rest).take e.message.toJson.text.utf8ByteSize =
      bytes e.message.toJson.text := by
    rw [← length_bytes, List.take_left]
  have hdrop : (bytes e.message.toJson.text ++ rest).drop e.message.toJson.text.utf8ByteSize =
      rest := by
    rw [← length_bytes, List.drop_left]
  have hlength : ¬(bytes e.message.toJson.text ++ rest).length <
      e.message.toJson.text.utf8ByteSize := by
    rw [List.length_append, length_bytes]
    omega
  unfold read
  simp only [readHeader_write he hm, if_neg hlength, htake, hdrop, decode_text hm.content hjson]
  rfl

/-- The results of reading so often, and what is left then. -/
def reads : Nat → List UInt8 → List (Except Fault (Option Message)) × List UInt8
  | 0, bs => ([], bs)
  | n + 1, bs =>
    let (result, rest) := read bs
    let (results, rest) := reads n rest
    (result :: results, rest)

theorem read_nil : read [] = (.ok none, []) := by
  rw [read, readHeader]

theorem reads_nil (n : Nat) : reads n [] = (List.replicate n (.ok none), []) := by
  induction n with
  | zero => rfl
  | succ n ih =>
    rw [reads, read_nil]
    dsimp only
    rw [ih]
    rfl

theorem reads_envelopes {es : List Envelope} (hes : ∀ e ∈ es, e.IsProper)
    (hms : ∀ e ∈ es, IsProper e.message) (hjson : ∀ e ∈ es, Regained e.message) (n : Nat) :
    reads (es.length + n) (bytes (String.join (es.map Envelope.write))) =
      (es.map (fun e => .ok (some e.message)) ++ List.replicate n (.ok none), []) := by
  induction es with
  | nil =>
    rw [List.length_nil, Nat.zero_add]
    exact reads_nil n
  | cons e es ih =>
    obtain ⟨he, hes⟩ := List.forall_mem_cons.1 hes
    obtain ⟨hm, hms⟩ := List.forall_mem_cons.1 hms
    obtain ⟨hj, hjs⟩ := List.forall_mem_cons.1 hjson
    rw [List.map_cons, String.join_cons, bytes_append, List.length_cons, Nat.add_right_comm, reads,
      read_write he hm hj]
    dsimp only
    rw [ih hes hms hjs]
    rfl

/-- Messages that are written one after the other are read in their order, and then nothing more,
also if other lines stand in their headers. -/
theorem reads_written {ms : List Message} (hms : ∀ m ∈ ms, IsProper m)
    (hjson : ∀ m ∈ ms, Regained m) (n : Nat) :
    reads (ms.length + n) (bytes (String.join (ms.map write))) =
        (ms.map (fun m => .ok (some m)) ++ List.replicate n (.ok none), []) ∧
      ∀ es : List Envelope, es.map Envelope.message = ms → (∀ e ∈ es, e.IsProper) →
        reads (ms.length + n) (bytes (String.join (es.map Envelope.write))) =
          (ms.map (fun m => .ok (some m)) ++ List.replicate n (.ok none), []) := by
  have henvelopes (es : List Envelope) (h : es.map Envelope.message = ms)
      (hes : ∀ e ∈ es, e.IsProper) :
      reads (ms.length + n) (bytes (String.join (es.map Envelope.write))) =
        (ms.map (fun m => .ok (some m)) ++ List.replicate n (.ok none), []) := by
    subst h
    rw [List.length_map, List.map_map]
    exact reads_envelopes hes (fun e he => hms _ (List.mem_map_of_mem he))
      (fun e he => hjson _ (List.mem_map_of_mem he)) n
  refine ⟨?_, henvelopes⟩
  have hmessages : (ms.map Envelope.bare).map Envelope.message = ms := by
    rw [List.map_map]
    exact List.map_id ms
  have hwrite : (ms.map Envelope.bare).map Envelope.write = ms.map write := by
    rw [List.map_map]
    exact List.map_congr_left fun m _ => Envelope.write_bare m
  have hbare := henvelopes (ms.map Envelope.bare) hmessages fun e he => by
    obtain ⟨m, -, rfl⟩ := List.mem_map.1 he
    exact Envelope.isProper_bare m
  rwa [hwrite] at hbare

def talk : List Message :=
  [⟨3, "request", .request "launch" (some (.obj [("program", .str "größe\n.py")]))⟩,
    ⟨1, "response", .response 3 false "launch" (some "β\r\n\r\n") none⟩,
    ⟨2, "event", .event "output" (some (.obj [("output", .str "1\n")]))⟩]

def dressedTalk : List Envelope :=
  talk.map fun m => ⟨["Content-Type: text; charset=utf-8\r"], ["größe", "X: 1\r"], m⟩

theorem reads_written_talk :
    reads 4 (bytes (String.join (talk.map write))) =
        (talk.map (fun m => .ok (some m)) ++ [.ok none], []) ∧
      reads 4 (bytes (String.join (dressedTalk.map Envelope.write))) =
        (talk.map (fun m => .ok (some m)) ++ [.ok none], []) := by
  have hsize : ∀ m ∈ talk, m.toJson.text.utf8ByteSize ≤ Number.greatestCount := by
    have hchars : ∀ m ∈ talk,
        ((Json.chars m.toJson).flatMap String.utf8EncodeChar).length ≤ Number.greatestCount := by
      decide
    intro m hm
    rw [← length_bytes, bytes_eq_flatMap, Json.toList_text]
    exact hchars m hm
  have hproper : ∀ m ∈ talk, IsProper m := by
    intro m hm
    refine ⟨?_, hsize m hm⟩
    simp only [talk, List.mem_cons, List.not_mem_nil, or_false] at hm
    rcases hm with rfl | rfl | rfl <;> constructor <;> rintro _ ⟨⟩ <;> rfl
  have hjson : ∀ m ∈ talk, Regained m := by
    intro m hm
    have hexact : ∀ m ∈ talk, m.toJson.isExact Json.maxDepth = true := by decide
    exact regained_of_isExact (hexact m hm)
  have hlines : ∀ e ∈ dressedTalk, e.IsProper := by
    intro e he
    obtain ⟨m, -, rfl⟩ := List.mem_map.1 he
    refine ⟨?_, ?_⟩
    · intro l hl
      obtain rfl := List.mem_singleton.1 hl
      exact isOther_of_name (by decide) ⟨'C', by decide, by decide⟩ (by decide)
    · intro l hl
      obtain rfl | rfl : l = "größe" ∨ l = "X: 1\r" := by simpa using hl
      · exact isOther_of_name (by decide) ⟨'g', by decide, by decide⟩ (by decide)
      · exact isOther_of_name (by decide) ⟨'X', by decide, by decide⟩ (by decide)
  have h := reads_written hproper hjson 1
  exact ⟨h.1, h.2 dressedTalk rfl hlines⟩

end Frame

end Stepwise
