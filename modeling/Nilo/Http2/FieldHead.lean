import Nilo.Http1.Find
import Nilo.Http2.Checks
import Nilo.Http2.Stream

/-!
# A call's fields as a head (`fieldHead` in `http/h2conn.zig`)

The App reads a call as it reads an HTTP/1.1 request, so its fields are written as the lines of one.
The head is written by hand into one allocation of a size that was counted before (`headSize`); a
write past it is a fault here, as it is in a checked build. `headPairs` is what the head is meant to
hold.
-/

namespace Nilo.Http2

open Text (Bytes ascii digitsOf)
open Http1 (lf cr HeaderIterator trimCR)

/-! ## The source -/

/-- `h2.hopByHop`. -/
def hopByHop (name : Bytes) : Bool :=
  [ascii "te", ascii "upgrade", ascii "connection", ascii "keep-alive", ascii "proxy-connection",
    ascii "transfer-encoding"].contains name

/-- The most a head can come to. -/
def headSize (fields : List Field) : Nat :=
  fields.foldl (fun size f => size + (f.name.length + f.value.length + 4))
    ((ascii "\nhost: localhost\r\ncontent-length: ").length + 20 + (ascii "\r\n\r\n").length)

/-- `put`: `bytes` behind what is written, in a buffer of `size` bytes. -/
def put (size : Nat) (bytes buf : Bytes) : Mem.Run Bytes :=
  if buf.length + bytes.length ≤ size then .ok (buf ++ bytes) else .error .range

/-- The loop of `decimal`, with `i` bytes of its text left. -/
def decimalFrom : Nat → Nat → Bytes → Mem.Run Bytes
  | 0, _, _ => .error .range
  | i + 1, rest, text =>
    let text := UInt8.ofNat (48 + rest % 10) :: text
    if rest / 10 = 0 then .ok text else decimalFrom i (rest / 10) text

/-- `decimal`, into twenty bytes. -/
def decimalText (n : Nat) : Mem.Run Bytes := decimalFrom 20 n []

def putHost (size : Nat) (fields : List Field) (buf : Bytes) : Mem.Run Bytes :=
  match fieldOf fields (ascii ":authority") with
  | some host => do
    let buf ← put size (ascii "host: ") buf
    let buf ← put size host buf
    put size (ascii "\r\n") buf
  | none =>
    if fieldOf fields (ascii "host") = none then put size (ascii "host: localhost\r\n") buf else .ok buf

/-- One turn of the loop over the cookies: whether there was one before is in the state. -/
def putCookie (size : Nat) (state : Bytes × Bool) (f : Field) : Mem.Run (Bytes × Bool) :=
  if f.name = ascii "cookie" then do
    let buf ← put size (if state.2 then ascii "; " else ascii "cookie: ") state.1
    let buf ← put size f.value buf
    .ok (buf, true)
  else .ok state

def putCookies (size : Nat) (fields : List Field) (buf : Bytes) : Mem.Run Bytes := do
  let state ← fields.foldlM (putCookie size) (buf, false)
  if state.2 then put size (ascii "\r\n") state.1 else .ok state.1

/-- The fields that are not written as a line of their own. -/
def skips (s : Stream) (f : Field) : Bool :=
  f.name.head?.all (· == 58) ||
  ((fieldOf s.fields (ascii ":authority")).isSome && f.name == ascii "host") ||
  hopByHop f.name || f.name == ascii "cookie" || f.name == ascii "content-length" ||
  (!s.piped && f.name == ascii "expect")

def putField (size : Nat) (s : Stream) (buf : Bytes) (f : Field) : Mem.Run Bytes :=
  if skips s f then .ok buf
  else do
    let buf ← put size f.name buf
    let buf ← put size (ascii ": ") buf
    let buf ← put size f.value buf
    put size (ascii "\r\n") buf

def putLength (size n : Nat) (buf : Bytes) : Mem.Run Bytes := do
  let buf ← put size (ascii "content-length: ") buf
  let text ← decimalText n
  let buf ← put size text buf
  put size (ascii "\r\n") buf

/-- The announced length of a request read through a pipe, and the length of a message that is
whole. -/
def putLengthOf (size : Nat) (s : Stream) (messageLen : Nat) (buf : Bytes) : Mem.Run Bytes :=
  if s.piped then
    match s.announced with
    | some n => putLength size n buf
    | none => .ok buf
  else putLength size messageLen buf

def fieldHead (s : Stream) (messageLen : Nat) : Mem.Run Bytes := do
  let size := headSize s.fields
  let buf ← put size [lf] []
  let buf ← putHost size s.fields buf
  let buf ← putCookies size s.fields buf
  let buf ← s.fields.foldlM (putField size s) buf
  let buf ← putLengthOf size s messageLen buf
  put size (ascii "\r\n") buf

/-! ## What the head holds -/

/-- `:authority` over a `host` field beside it; `localhost` where there is neither. -/
def hostPairs (fields : List Field) : List (Bytes × Bytes) :=
  match fieldOf fields (ascii ":authority") with
  | some host => [(ascii "host", host)]
  | none => if fieldOf fields (ascii "host") = none then [(ascii "host", ascii "localhost")] else []

def cookies (fields : List Field) : List Bytes :=
  (fields.filter fun f => f.name == ascii "cookie").map Field.value

/-- The cookies a client split, as one again. -/
def cookiePairs (fields : List Field) : List (Bytes × Bytes) :=
  if cookies fields = [] then []
  else [(ascii "cookie", (ascii "; ").intercalate (cookies fields))]

/-- The regular fields that are lines of their own, in order. -/
def regularPairs (s : Stream) : List (Bytes × Bytes) :=
  (s.fields.filter fun f => !skips s f).map fun f => (f.name, f.value)

def lengthPairs (s : Stream) (messageLen : Nat) : List (Bytes × Bytes) :=
  (if s.piped then s.announced.toList else [messageLen]).map fun n =>
    (ascii "content-length", digitsOf n)

def headPairs (s : Stream) (messageLen : Nat) : List (Bytes × Bytes) :=
  hostPairs s.fields ++ cookiePairs s.fields ++ regularPairs s ++ lengthPairs s messageLen

/-- A name and a value as one line. -/
def lineText (pair : Bytes × Bytes) : Bytes := pair.1 ++ ascii ": " ++ pair.2 ++ ascii "\r\n"

/-! ## The write pass, given the room -/

/-- A step that writes `text` wherever the buffer has room for it. -/
def Puts (size : Nat) (step : Bytes → Mem.Run Bytes) (text : Bytes) : Prop :=
  ∀ buf, buf.length + text.length ≤ size → step buf = .ok (buf ++ text)

section Puts

variable {size : Nat}

theorem puts_put (text : Bytes) : Puts size (put size text) text := fun _ hroom => if_pos hroom

theorem puts_ok : Puts size .ok [] := fun buf _ => by rw [List.append_nil]

theorem Puts.bind {first second : Bytes → Mem.Run Bytes} {text more : Bytes}
    (hfirst : Puts size first text) (hsecond : Puts size second more) :
    Puts size (fun buf => first buf >>= second) (text ++ more) := by
  intro buf hroom
  rw [List.length_append] at hroom
  have hnext := hsecond (buf ++ text) (by rw [List.length_append]; omega)
  dsimp only
  rw [hfirst buf (by omega), ← List.append_assoc, ← hnext]
  rfl

theorem Puts.foldlM {α : Type} {step : Bytes → α → Mem.Run Bytes} {text : α → Bytes}
    (h : ∀ a, Puts size (fun buf => step buf a) (text a)) (l : List α) :
    Puts size (fun buf => l.foldlM step buf) (l.flatMap text) := by
  induction l with
  | nil => exact puts_ok
  | cons a l ih =>
    rw [List.flatMap_cons]
    exact (h a).bind ih

/-- The four writes of a line. -/
theorem puts_line (name value : Bytes) :
    Puts size (fun buf => do
      let buf ← put size name buf
      let buf ← put size (ascii ": ") buf
      let buf ← put size value buf
      put size (ascii "\r\n") buf) (lineText (name, value)) := by
  have h := (@puts_put size name).bind
    ((puts_put (ascii ": ")).bind ((puts_put value).bind (puts_put (ascii "\r\n"))))
  rwa [← List.append_assoc, ← List.append_assoc] at h

theorem puts_host (fields : List Field) :
    Puts size (putHost size fields) ((hostPairs fields).flatMap lineText) := by
  unfold putHost hostPairs
  cases fieldOf fields (ascii ":authority") with
  | some host =>
    have h := (@puts_put size (ascii "host: ")).bind
      ((puts_put host).bind (puts_put (ascii "\r\n")))
    rw [← List.append_assoc] at h
    dsimp only
    rw [List.flatMap_singleton]
    exact h
  | none =>
    dsimp only
    by_cases hnone : fieldOf fields (ascii "host") = none
    · rw [hnone]
      exact puts_put _
    · simp only [if_neg hnone]
      exact puts_ok

/-- The digits of a number below `10 ^ i` fit in `i` bytes. -/
theorem decimalFrom_eq (i : Nat) : ∀ {rest : Nat} (text : Bytes), rest < 10 ^ (i + 1) →
    decimalFrom (i + 1) rest text = .ok (digitsOf rest ++ text) := by
  induction i with
  | zero =>
    intro rest text hrest
    have hsmall : rest < 10 := hrest
    rw [decimalFrom, Text.digitsOf_eq, if_pos hsmall, Nat.mod_eq_of_lt hsmall, if_pos (by omega)]
    rfl
  | succ i ih =>
    intro rest text hrest
    rw [decimalFrom, Text.digitsOf_eq]
    by_cases hlast : rest < 10
    · rw [if_pos (by omega), if_pos hlast, Nat.mod_eq_of_lt hlast]
      rfl
    · rw [if_neg (by omega), if_neg hlast, ih _ (by rw [pow_succ] at hrest; omega), List.append_assoc]
      rfl

theorem decimalText_eq {n : Nat} (hn : n < 2 ^ 64) : decimalText n = .ok (digitsOf n) := by
  rw [decimalText, decimalFrom_eq 19 [] (by omega), List.append_nil]

theorem puts_length {n : Nat} (hn : n < 2 ^ 64) :
    Puts size (putLength size n) (lineText (ascii "content-length", digitsOf n)) := by
  have h := (@puts_put size (ascii "content-length: ")).bind
    ((puts_put (digitsOf n)).bind (puts_put (ascii "\r\n")))
  rw [← List.append_assoc] at h
  unfold putLength
  rw [decimalText_eq hn]
  exact h

theorem puts_lengthOf {s : Stream} {messageLen : Nat} (hannounced : ∀ n ∈ s.announced, n < 2 ^ 64)
    (hmessage : messageLen < 2 ^ 64) :
    Puts size (putLengthOf size s messageLen) ((lengthPairs s messageLen).flatMap lineText) := by
  unfold putLengthOf lengthPairs
  cases s.piped with
  | false => exact List.flatMap_singleton lineText _ ▸ puts_length hmessage
  | true =>
    cases hn : s.announced with
    | none => exact puts_ok
    | some n => exact List.flatMap_singleton lineText _ ▸ puts_length (hannounced n hn)

theorem flatMap_filter {α β : Type} (p : α → Bool) (text : α → List β) (l : List α) :
    (l.filter p).flatMap text = l.flatMap fun a => if p a then text a else [] := by
  induction l with
  | nil => rfl
  | cons a l ih =>
    rw [List.flatMap_cons, ← ih, List.filter_cons]
    cases p a with
    | true => rfl
    | false => rfl

theorem puts_fields (s : Stream) :
    Puts size (fun buf => s.fields.foldlM (putField size s) buf) ((regularPairs s).flatMap lineText) := by
  rw [regularPairs, List.flatMap_map, flatMap_filter]
  refine Puts.foldlM (fun f => ?_) s.fields
  unfold putField
  cases skips s f with
  | true => exact puts_ok
  | false => exact puts_line f.name f.value

/-- What the loop over the cookies writes of these, with one before them or none. -/
def cookieText : Bool → List Bytes → Bytes
  | _, [] => []
  | told, value :: rest => (if told then ascii "; " else ascii "cookie: ") ++ value ++ cookieText true rest

theorem cookies_cons (f : Field) (fields : List Field) :
    cookies (f :: fields) = if f.name = ascii "cookie" then f.value :: cookies fields else cookies fields := by
  rw [cookies, List.filter_cons, cookies]
  by_cases hname : f.name = ascii "cookie"
  · rw [if_pos hname, if_pos (beq_iff_eq.mpr hname), List.map_cons]
  · rw [if_neg hname, if_neg fun h => hname (beq_iff_eq.mp h)]

theorem foldlM_putCookie (fields : List Field) : ∀ {buf : Bytes} {told : Bool},
    buf.length + (cookieText told (cookies fields)).length ≤ size →
    fields.foldlM (putCookie size) (buf, told) =
      .ok (buf ++ cookieText told (cookies fields), told || !(cookies fields).isEmpty) := by
  induction fields with
  | nil =>
    intro buf told _
    change Except.ok (buf, told) = _
    rw [cookies, List.filter_nil, List.map_nil, cookieText, List.append_nil, List.isEmpty_nil,
      Bool.not_true, Bool.or_false]
  | cons f fields ih =>
    intro buf told hroom
    rw [List.foldlM_cons]
    rw [cookies_cons] at hroom ⊢
    by_cases hname : f.name = ascii "cookie"
    · rw [if_pos hname, cookieText, List.append_assoc] at hroom
      rw [List.length_append, List.length_append] at hroom
      have hlead := @puts_put size (if told then ascii "; " else ascii "cookie: ") buf (by omega)
      have hvalue := @puts_put size f.value (buf ++ if told then ascii "; " else ascii "cookie: ")
        (by rw [List.length_append]; omega)
      have hturn : putCookie size (buf, told) f =
          .ok (buf ++ (if told then ascii "; " else ascii "cookie: ") ++ f.value, true) := by
        rw [putCookie, if_pos hname, hlead]
        change (put size f.value _ >>= _) = _
        rw [hvalue]
        rfl
      have hrest := @ih (buf ++ (if told then ascii "; " else ascii "cookie: ") ++ f.value) true
        (by rw [List.length_append, List.length_append]; omega)
      rw [hturn, if_pos hname, cookieText, List.isEmpty_cons, Bool.not_false, Bool.or_true]
      rw [Bool.true_or] at hrest
      rw [← List.append_assoc, ← List.append_assoc]
      exact hrest
    · rw [if_neg hname] at hroom ⊢
      have hturn : putCookie size (buf, told) f = .ok (buf, told) := if_neg hname
      rw [hturn]
      exact ih hroom

theorem cookieText_told (value : Bytes) (rest : List Bytes) :
    value ++ cookieText true rest = (ascii "; ").intercalate (value :: rest) := by
  induction rest generalizing value with
  | nil => rw [cookieText, List.append_nil, List.intercalate_singleton]
  | cons next rest ih =>
    rw [cookieText, if_pos rfl, List.intercalate_cons_cons, ← ih next, List.append_assoc,
      List.append_assoc]

theorem puts_cookies (fields : List Field) :
    Puts size (putCookies size fields) ((cookiePairs fields).flatMap lineText) := by
  intro buf hroom
  rw [cookiePairs] at hroom ⊢
  cases hcookies : cookies fields with
  | nil =>
    have hfold := @foldlM_putCookie size fields buf false
      (by rw [hcookies]; rw [if_pos hcookies] at hroom; exact hroom)
    rw [hcookies] at hfold
    rw [putCookies, hfold]
    rfl
  | cons value rest =>
    have hline : lineText (ascii "cookie", (ascii "; ").intercalate (value :: rest)) =
        cookieText false (value :: rest) ++ ascii "\r\n" := by
      rw [cookieText, if_neg Bool.false_ne_true, List.append_assoc (ascii "cookie: "), cookieText_told]
      rfl
    rw [if_neg (by rw [hcookies]; exact List.cons_ne_nil _ _), hcookies, List.flatMap_singleton, hline,
      List.length_append] at hroom
    have hfold := @foldlM_putCookie size fields buf false (by rw [hcookies]; omega)
    have hend := @puts_put size (ascii "\r\n") (buf ++ cookieText false (value :: rest))
      (by rw [List.length_append]; omega)
    rw [hcookies] at hfold
    rw [putCookies, hfold, if_neg (List.cons_ne_nil _ _), List.flatMap_singleton, hline,
      ← List.append_assoc]
    exact hend

end Puts

/-! ## The size pass -/

/-- What a field adds to the size of the head. -/
def lineSize (f : Field) : Nat := f.name.length + f.value.length + 4

theorem headSize_eq (fields : List Field) : headSize fields = 58 + (fields.map lineSize).sum := by
  have hfold (start : Nat) (l : List Field) :
      l.foldl (fun size f => size + (f.name.length + f.value.length + 4)) start =
        start + (l.map lineSize).sum := by
    induction l generalizing start with
    | nil => rfl
    | cons f l ih => rw [List.foldl_cons, ih, List.map_cons, List.sum_cons, lineSize, Nat.add_assoc]
  rw [headSize, hfold]
  rfl

theorem length_lineText (pair : Bytes × Bytes) :
    (lineText pair).length = pair.1.length + pair.2.length + 4 := by
  have hcolon : (ascii ": ").length = 2 := rfl
  have hend : (ascii "\r\n").length = 2 := rfl
  rw [lineText, List.length_append, List.length_append, List.length_append, hcolon, hend]
  omega

/-- The part of the size that `:authority` pays for. -/
def hostShare (fields : List Field) : Nat :=
  ((fieldOf fields (ascii ":authority")).map fun host => host.length + 8).getD 0

/-- The part of it that the cookies pay for. -/
def cookieShare (fields : List Field) : Nat := ((cookies fields).map fun value => value.length + 10).sum

/-- Every field pays for one line at most: `:authority` for the host, the cookies for theirs, and the
others for their own. -/
theorem shares_le (p : Field → Bool) (hauthority : ∀ f, p f = true → f.name ≠ ascii ":authority")
    (hcookie : ∀ f, p f = true → f.name ≠ ascii "cookie") (fields : List Field) :
    hostShare fields + cookieShare fields + ((fields.filter p).map lineSize).sum ≤
      (fields.map lineSize).sum := by
  induction fields with
  | nil => exact Nat.le_refl _
  | cons f fields ih =>
    rw [List.map_cons, List.sum_cons]
    rw [hostShare, cookieShare] at ih ⊢
    rw [fieldOf_cons, cookies_cons]
    by_cases hhost : f.name = ascii ":authority"
    · have hname : f.name ≠ ascii "cookie" := by
        rw [hhost]
        decide
      have hskip : ¬p f = true := fun h => hauthority f h hhost
      have hsize : lineSize f = f.value.length + 14 := by
        rw [lineSize, hhost]
        change 10 + _ + 4 = _
        omega
      rw [if_pos hhost, if_neg hname, List.filter_cons_of_neg hskip, hsize, Option.map_some,
        Option.getD_some]
      omega
    · by_cases hname : f.name = ascii "cookie"
      · have hskip : ¬p f = true := fun h => hcookie f h hname
        have hsize : lineSize f = f.value.length + 10 := by
          rw [lineSize, hname]
          change 6 + _ + 4 = _
          omega
        rw [if_neg hhost, if_pos hname, List.filter_cons_of_neg hskip, hsize, List.map_cons,
          List.sum_cons]
        omega
      · rw [if_neg hhost, if_neg hname, List.filter_cons]
        cases p f with
        | true =>
          rw [if_pos rfl, List.map_cons, List.sum_cons]
          omega
        | false =>
          rw [if_neg Bool.false_ne_true]
          omega

theorem length_intercalate (value : Bytes) (rest : List Bytes) :
    ((ascii "; ").intercalate (value :: rest)).length + 10 ≤
      ((value :: rest).map fun value => value.length + 10).sum := by
  have hsep : (ascii "; ").length = 2 := rfl
  induction rest generalizing value with
  | nil =>
    rw [List.intercalate_singleton, List.map_singleton, List.sum_singleton]
  | cons next rest ih =>
    have hnext := ih next
    rw [List.intercalate_cons_cons, List.length_append, List.length_append, hsep, List.map_cons,
      List.sum_cons]
    omega

theorem hostPairs_le (fields : List Field) :
    ((hostPairs fields).flatMap lineText).length ≤ hostShare fields + 17 := by
  rw [hostPairs, hostShare]
  cases fieldOf fields (ascii ":authority") with
  | some host =>
    dsimp only
    rw [List.flatMap_singleton, length_lineText, Option.map_some, Option.getD_some]
    change 4 + host.length + 4 ≤ _
    omega
  | none =>
    dsimp only
    split_ifs
    · exact Nat.le_refl _
    · exact Nat.zero_le _

theorem cookiePairs_le (fields : List Field) :
    ((cookiePairs fields).flatMap lineText).length ≤ cookieShare fields := by
  rw [cookiePairs, cookieShare]
  cases cookies fields with
  | nil => exact Nat.zero_le _
  | cons value rest =>
    have hjoined := length_intercalate value rest
    rw [if_neg (List.cons_ne_nil _ _), List.flatMap_singleton, length_lineText]
    change 6 + _ + 4 ≤ _
    dsimp only
    omega

theorem regularPairs_eq (s : Stream) : ((regularPairs s).flatMap lineText).length =
    ((s.fields.filter fun f => !skips s f).map lineSize).sum := by
  rw [regularPairs]
  induction s.fields.filter fun f => !skips s f with
  | nil => rfl
  | cons f fields ih =>
    rw [List.map_cons, List.flatMap_cons, List.length_append, ih, length_lineText, List.map_cons,
      List.sum_cons, lineSize]

theorem lengthPairs_le {s : Stream} {messageLen : Nat} (hannounced : ∀ n ∈ s.announced, n < 2 ^ 64)
    (hmessage : messageLen < 2 ^ 64) :
    ((lengthPairs s messageLen).flatMap lineText).length ≤ 38 := by
  have hdigits {n : Nat} (hn : n < 2 ^ 64) : (digitsOf n).length ≤ 20 :=
    (Text.length_digitsOf_le (by decide)).mpr (by omega)
  rw [lengthPairs]
  cases s.piped with
  | false =>
    have := hdigits hmessage
    rw [if_neg Bool.false_ne_true, List.map_singleton, List.flatMap_singleton, length_lineText]
    change 14 + _ + 4 ≤ _
    dsimp only
    omega
  | true =>
    cases hn : s.announced with
    | none => exact Nat.zero_le _
    | some n =>
      have := hdigits (hannounced n hn)
      rw [if_pos rfl, Option.toList_some, List.map_singleton, List.flatMap_singleton, length_lineText]
      change 14 + _ + 4 ≤ _
      dsimp only
      omega

theorem not_skips {s : Stream} {f : Field} (h : (!skips s f) = true) :
    f.name.head? ≠ some 58 ∧ f.name ≠ [] ∧ f.name ≠ ascii "cookie" := by
  rw [skips, Bool.not_or, Bool.not_or, Bool.not_or, Bool.not_or, Bool.not_or, Bool.and_eq_true,
    Bool.and_eq_true, Bool.and_eq_true, Bool.and_eq_true, Bool.and_eq_true] at h
  obtain ⟨⟨⟨⟨⟨hhead, -⟩, -⟩, hcookie⟩, -⟩, -⟩ := h
  refine ⟨?_, ?_, ?_⟩
  · intro heq
    rw [heq] at hhead
    cases hhead
  · intro heq
    rw [heq] at hhead
    cases hhead
  · intro heq
    rw [heq] at hcookie
    cases hcookie

/-- The text of the head, as the lines it is written in. -/
def headText (s : Stream) (messageLen : Nat) : Bytes :=
  lf :: ((headPairs s messageLen).flatMap lineText ++ ascii "\r\n")

theorem headText_fits {s : Stream} {messageLen : Nat} (hannounced : ∀ n ∈ s.announced, n < 2 ^ 64)
    (hmessage : messageLen < 2 ^ 64) : (headText s messageLen).length ≤ headSize s.fields := by
  have hshares := shares_le (fun f => !skips s f)
    (fun f hf heq => (not_skips hf).1 (by rw [heq]; rfl)) (fun f hf => (not_skips hf).2.2) s.fields
  have hhost := hostPairs_le s.fields
  have hcookies := cookiePairs_le s.fields
  have hlength := lengthPairs_le hannounced hmessage
  have hend : (ascii "\r\n").length = 2 := rfl
  rw [headText, headPairs, headSize_eq, List.length_cons, List.length_append, hend, List.flatMap_append,
    List.flatMap_append, List.flatMap_append, List.length_append, List.length_append,
    List.length_append, regularPairs_eq]
  omega

theorem fieldHead_ok {s : Stream} {messageLen : Nat} (hannounced : ∀ n ∈ s.announced, n < 2 ^ 64)
    (hmessage : messageLen < 2 ^ 64) : fieldHead s messageLen = .ok (headText s messageLen) := by
  have hputs : Puts (headSize s.fields) _ _ := (puts_put [lf]).bind ((puts_host s.fields).bind
    ((puts_cookies s.fields).bind ((puts_fields s).bind
      ((puts_lengthOf hannounced hmessage).bind (puts_put (ascii "\r\n"))))))
  have htext : headText s messageLen = [lf] ++ ((hostPairs s.fields).flatMap lineText ++
      ((cookiePairs s.fields).flatMap lineText ++ ((regularPairs s).flatMap lineText ++
        ((lengthPairs s messageLen).flatMap lineText ++ ascii "\r\n")))) := by
    rw [headText, headPairs, List.flatMap_append, List.flatMap_append, List.flatMap_append,
      List.append_assoc, List.append_assoc, List.append_assoc]
    rfl
  rw [← htext] at hputs
  exact hputs [] (by rw [List.length_nil, Nat.zero_add]; exact headText_fits hannounced hmessage)

/-! ## The head read back -/

theorem trimBlanks_space (value : Bytes) : Text.trimBlanks (32 :: value) = Text.trimBlanks value := rfl

theorem trimCR_snoc (line : Bytes) : trimCR (line ++ [cr]) = line := by
  rw [trimCR, List.getLast?_concat, if_pos rfl, List.dropLast_concat]

/-- A pair whose line is one line, and whose name is what is in front of its colon. -/
def OneLine (pair : Bytes × Bytes) : Prop := 58 ∉ pair.1 ∧ lf ∉ pair.1 ∧ lf ∉ pair.2

theorem plain_of {name value : Bytes} (hname : 58 ∉ name ∧ lf ∉ name) (hvalue : lf ∉ value) :
    OneLine (name, value) := ⟨hname.1, hname.2, hvalue⟩

/-- The iterator gives the pairs the lines were written from, without the blanks around a value. -/
theorem all_lines (pairs : List (Bytes × Bytes)) (h : ∀ pair ∈ pairs, OneLine pair) :
    HeaderIterator.all ⟨(pairs.flatMap lineText ++ ascii "\r\n").splitOn lf⟩ =
      pairs.map fun pair => (pair.1, Text.trimBlanks pair.2) := by
  induction pairs with
  | nil =>
    have hsplit : (ascii "\r\n").splitOn lf = [[cr], []] := by decide
    rw [List.flatMap_nil, List.nil_append, hsplit, Http1.all_blank (by decide), List.map_nil]
  | cons pair pairs ih =>
    obtain ⟨name, value⟩ := pair
    obtain ⟨hcolon, hname, hvalue⟩ := h (name, value) (List.mem_cons_self ..)
    dsimp only at hcolon hname hvalue
    have hline : lineText (name, value) ++ (pairs.flatMap lineText ++ ascii "\r\n") =
        (name ++ 58 :: 32 :: value ++ [cr]) ++ lf :: (pairs.flatMap lineText ++ ascii "\r\n") := by
      rw [lineText, List.append_assoc, List.append_assoc, List.append_assoc, List.append_assoc,
        List.append_assoc]
      rfl
    have hnone : lf ∉ name ++ 58 :: 32 :: value ++ [cr] := by
      rw [List.mem_append, List.mem_append, List.mem_cons, List.mem_cons, List.mem_singleton]
      rintro ((hmem | hmem | hmem | hmem) | hmem)
      · exact hname hmem
      · exact absurd hmem (by decide)
      · exact absurd hmem (by decide)
      · exact hvalue hmem
      · exact absurd hmem (by decide)
    have hidx : (name ++ 58 :: 32 :: value).idxOf? 58 = some name.length := by
      refine Http1.idxOf?_some.mpr ⟨?_, ?_⟩
      · rw [List.getElem?_append_right (Nat.le_refl _), Nat.sub_self]
        rfl
      · intro j hj heq
        rw [List.getElem?_append_left hj] at heq
        exact hcolon (List.mem_of_getElem? heq)
    have hback : (trimCR (name ++ 58 :: 32 :: value ++ [cr])).idxOf? 58 = some name.length := by
      rw [trimCR_snoc]
      exact hidx
    have hdrop : (name ++ 58 :: 32 :: value).drop (name.length + 1) = 32 :: value := by
      rw [List.drop_append, List.drop_of_length_le (Nat.le_succ _), Nat.add_sub_cancel_left]
      rfl
    rw [List.flatMap_cons, List.append_assoc, hline, List.splitOn_append_cons_self_of_not_mem hnone,
      Http1.all_field hback, trimCR_snoc, hdrop, List.take_left, trimBlanks_space,
      ih fun other hother => h other (List.mem_cons_of_mem _ hother), List.map_cons]

theorem start_lf (text : Bytes) : HeaderIterator.start (lf :: text) = ⟨text.splitOn lf⟩ := by
  have hsplit := List.splitOn_append_cons_self_of_not_mem (List.not_mem_nil (a := lf)) text
  rw [List.nil_append] at hsplit
  rw [HeaderIterator.start, hsplit, List.tail_cons]

theorem validField_plain {f : Field} (h : Reference.validField f = true) :
    lf ∉ f.value ∧ (f.name.head? ≠ some 58 → OneLine (f.name, f.value)) := by
  rw [Reference.validField] at h
  cases hname : f.name with
  | nil =>
    rw [hname] at h
    cases h
  | cons first tail =>
    rw [hname] at h
    dsimp only at h
    rw [Bool.and_eq_true, Bool.and_eq_true, List.all_eq_true, List.all_eq_true] at h
    obtain ⟨⟨-, htoken⟩, hclean⟩ := h
    have hvalue : lf ∉ f.value := fun hmem => absurd (hclean lf hmem) (by decide)
    refine ⟨hvalue, fun hhead => ⟨?_, ?_, hvalue⟩⟩
    · intro hmem
      rw [List.head?_cons] at hhead
      rw [if_neg fun heq => hhead (congrArg some (beq_iff_eq.mp heq))] at htoken
      exact absurd (htoken 58 hmem) (by decide)
    · intro hmem
      rw [List.head?_cons] at hhead
      rw [if_neg fun heq => hhead (congrArg some (beq_iff_eq.mp heq))] at htoken
      exact absurd (htoken lf hmem) (by decide)

theorem fieldOf_mem {fields : List Field} {name value : Bytes} (h : fieldOf fields name = some value) :
    ∃ f ∈ fields, f.value = value := by
  rw [fieldOf, Option.map_eq_some_iff] at h
  obtain ⟨f, hfind, hvalue⟩ := h
  exact ⟨f, List.mem_of_find?_eq_some hfind, hvalue⟩

theorem mem_intercalate {sep : Bytes} {values : List Bytes} {ch : UInt8}
    (h : ch ∈ sep.intercalate values) : ch ∈ sep ∨ ∃ value ∈ values, ch ∈ value := by
  induction values with
  | nil => cases h
  | cons value rest ih =>
    cases rest with
    | nil =>
      rw [List.intercalate_singleton] at h
      exact Or.inr ⟨value, List.mem_cons_self .., h⟩
    | cons next rest =>
      rw [List.intercalate_cons_cons, List.mem_append, List.mem_append] at h
      rcases h with (h | h) | h
      · exact Or.inr ⟨value, List.mem_cons_self .., h⟩
      · exact Or.inl h
      · rcases ih h with hsep | ⟨found, hfound, hmem⟩
        · exact Or.inl hsep
        · exact Or.inr ⟨found, List.mem_cons_of_mem _ hfound, hmem⟩

theorem lf_digitsOf (n : Nat) : lf ∉ digitsOf n := by
  intro hmem
  rw [digitsOf, List.mem_map] at hmem
  obtain ⟨ch, hch, heq⟩ := hmem
  have hdigit := Nat.isDigit_of_mem_toDigits (by decide) (by decide) hch
  rw [Char.isDigit, Bool.and_eq_true, decide_eq_true_eq, decide_eq_true_eq] at hdigit
  have hlow : 48 ≤ ch.toNat := UInt32.le_iff_toNat_le.mp hdigit.1
  have hhigh : ch.toNat ≤ 57 := UInt32.le_iff_toNat_le.mp hdigit.2
  have hnat := congrArg UInt8.toNat heq
  rw [UInt8.toNat_ofNat', Nat.mod_eq_of_lt (by omega)] at hnat
  change ch.toNat = 10 at hnat
  omega

theorem headPairs_plain {s : Stream} (messageLen : Nat)
    (hvalid : ∀ f ∈ s.fields, Reference.validField f = true) :
    ∀ pair ∈ headPairs s messageLen, OneLine pair := by
  intro pair hmem
  rw [headPairs, List.mem_append, List.mem_append, List.mem_append] at hmem
  rcases hmem with ((hmem | hmem) | hmem) | hmem
  · rw [hostPairs] at hmem
    cases hhost : fieldOf s.fields (ascii ":authority") with
    | some host =>
      rw [hhost, List.mem_singleton] at hmem
      obtain ⟨f, hf, hvalue⟩ := fieldOf_mem hhost
      rw [hmem, ← hvalue]
      exact plain_of (by decide) (validField_plain (hvalid f hf)).1
    | none =>
      rw [hhost] at hmem
      dsimp only at hmem
      split_ifs at hmem
      · rw [List.mem_singleton] at hmem
        rw [hmem]
        exact plain_of (by decide) (by decide)
      · cases hmem
  · rw [cookiePairs] at hmem
    split_ifs at hmem
    · cases hmem
    · rw [List.mem_singleton] at hmem
      rw [hmem]
      refine plain_of (by decide) fun hlf => ?_
      rcases mem_intercalate hlf with hsep | ⟨value, hvalue, hlf⟩
      · exact absurd hsep (by decide)
      · rw [cookies, List.mem_map] at hvalue
        obtain ⟨f, hf, rfl⟩ := hvalue
        exact (validField_plain (hvalid f (List.mem_of_mem_filter hf))).1 hlf
  · rw [regularPairs, List.mem_map] at hmem
    obtain ⟨f, hf, rfl⟩ := hmem
    obtain ⟨hf, hskip⟩ := List.mem_filter.mp hf
    exact (validField_plain (hvalid f hf)).2 (not_skips hskip).1
  · rw [lengthPairs, List.mem_map] at hmem
    obtain ⟨n, -, rfl⟩ := hmem
    exact plain_of (by decide) (lf_digitsOf n)

/-- For every call whose fields pass the scan, the head is written within the size that was counted
for it, and the iterator reads back from it one host line where the call has an `:authority`, the
cookies as one line, the regular fields that are kept, in order and each with its own value, and the
length: these lines and no others, whatever the values hold. -/
theorem fieldHead_read (s : Stream) (messageLen : Nat) (htable : FromTable s.fields)
    (hscan : (scan s.fields).fieldsOk = true) (hannounced : ∀ n ∈ s.announced, n < 2 ^ 64)
    (hmessage : messageLen < 2 ^ 64) :
    ∃ head, fieldHead s messageLen = .ok head ∧ head.length ≤ headSize s.fields ∧
      (HeaderIterator.start head).all =
        (headPairs s messageLen).map fun pair => (pair.1, Text.trimBlanks pair.2) := by
  have hvalid : ∀ f ∈ s.fields, Reference.validField f = true := by
    rw [scan, (@scanFrom_eq s.fields {} {} false htable rfl).1, List.all_eq_true] at hscan
    exact hscan
  refine ⟨_, fieldHead_ok hannounced hmessage, headText_fits hannounced hmessage, ?_⟩
  rw [headText, start_lf, all_lines _ (headPairs_plain messageLen hvalid)]

/-- A call of a client that splits its cookies and sends a `host` beside its `:authority`. -/
def splitCookies : Stream where
  ref := 0
  fields := [⟨ascii ":method", ascii "POST", true⟩, ⟨ascii ":scheme", ascii "https", true⟩,
    ⟨ascii ":path", ascii "/a", true⟩, ⟨ascii ":authority", ascii "nilo.dev", true⟩,
    ⟨ascii "host", ascii "other", true⟩, ⟨ascii "cookie", ascii "a=1", true⟩,
    ⟨ascii "te", ascii "trailers", false⟩, ⟨ascii "x-trace", ascii "7", false⟩,
    ⟨ascii "content-length", ascii "005", true⟩, ⟨ascii "cookie", ascii "b=2", true⟩]
  piped := true
  announced := some 5

theorem fieldHead_read_splitCookies : ∃ head, fieldHead splitCookies 0 = .ok head ∧
    head.length ≤ headSize splitCookies.fields ∧
    (HeaderIterator.start head).all = [(ascii "host", ascii "nilo.dev"), (ascii "cookie", ascii "a=1; b=2"),
      (ascii "x-trace", ascii "7"), (ascii "content-length", ascii "5")] := by
  obtain ⟨head, hok, hfits, hread⟩ := fieldHead_read splitCookies 0 (by decide)
    (by decide) (by decide) (by decide)
  exact ⟨head, hok, hfits, hread.trans (by decide)⟩

/-- A call that is over, with two `host` fields, an `expect`, and blanks around a value. -/
def twoHosts : Stream where
  ref := 0
  fields := [⟨ascii ":method", ascii "GET", true⟩, ⟨ascii ":scheme", ascii "https", true⟩,
    ⟨ascii ":path", ascii "/a", true⟩, ⟨ascii "host", ascii "one", true⟩,
    ⟨ascii "expect", ascii "100-continue", true⟩, ⟨ascii "x-pad", ascii " v", false⟩,
    ⟨ascii "host", ascii "two", true⟩]

/-- The regular fields of a list as they are, with one host line and the cookies as one: not what is
read back from the head of a call whose fields pass the scan. The `expect` is left out and a length
put in, the value comes without its blank, and each `host` has its line. -/
theorem head_other_fields :
    (scan twoHosts.fields).fieldsOk = true ∧ (scan twoHosts.fields).pseudoOk = true ∧
    (scan twoHosts.fields).connectionOk = true ∧
    (fieldHead twoHosts 0).toOption.map (fun head => (HeaderIterator.start head).all) =
      some [(ascii "host", ascii "one"), (ascii "x-pad", ascii "v"), (ascii "host", ascii "two"),
        (ascii "content-length", ascii "0")] := by
  decide

end Nilo.Http2
