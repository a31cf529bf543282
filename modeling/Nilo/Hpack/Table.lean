import Nilo.Hpack.Huffman
import Nilo.Lib.Fitting

/-!
# The tables of HPACK (`http/hpack.zig`, RFC 7541 §2.3, §4)

The static table, and the decoder's own, which the client writes into: entries it allocates, newest
last, from whose front it evicts. A field that is found in it points at bytes that eviction frees,
so what a field points at is part of the model, and a read of freed bytes is a fault.

`Refines` ties it to the table of the RFC, a list newest first that is cut to what fits.
-/

namespace Nilo.Hpack

open Text (Bytes ascii)
open Mem (Fault Run)
open Lib (fitting total)

/-- The overhead RFC 7541 §4.1 charges each entry on top of its bytes. -/
def entryOverhead : Nat := 32

structure Field where
  name : Bytes
  value : Bytes
deriving DecidableEq, Repr

def Field.weight (f : Field) : Nat := f.name.length + f.value.length + entryOverhead

/-- Appendix A: the 61 fields every HPACK encoder may name by number. -/
def staticTable : List Field :=
  [ ⟨ascii ":authority", ascii ""⟩,
    ⟨ascii ":method", ascii "GET"⟩,
    ⟨ascii ":method", ascii "POST"⟩,
    ⟨ascii ":path", ascii "/"⟩,
    ⟨ascii ":path", ascii "/index.html"⟩,
    ⟨ascii ":scheme", ascii "http"⟩,
    ⟨ascii ":scheme", ascii "https"⟩,
    ⟨ascii ":status", ascii "200"⟩,
    ⟨ascii ":status", ascii "204"⟩,
    ⟨ascii ":status", ascii "206"⟩,
    ⟨ascii ":status", ascii "304"⟩,
    ⟨ascii ":status", ascii "400"⟩,
    ⟨ascii ":status", ascii "404"⟩,
    ⟨ascii ":status", ascii "500"⟩,
    ⟨ascii "accept-charset", ascii ""⟩,
    ⟨ascii "accept-encoding", ascii "gzip, deflate"⟩,
    ⟨ascii "accept-language", ascii ""⟩,
    ⟨ascii "accept-ranges", ascii ""⟩,
    ⟨ascii "accept", ascii ""⟩,
    ⟨ascii "access-control-allow-origin", ascii ""⟩,
    ⟨ascii "age", ascii ""⟩,
    ⟨ascii "allow", ascii ""⟩,
    ⟨ascii "authorization", ascii ""⟩,
    ⟨ascii "cache-control", ascii ""⟩,
    ⟨ascii "content-disposition", ascii ""⟩,
    ⟨ascii "content-encoding", ascii ""⟩,
    ⟨ascii "content-language", ascii ""⟩,
    ⟨ascii "content-length", ascii ""⟩,
    ⟨ascii "content-location", ascii ""⟩,
    ⟨ascii "content-range", ascii ""⟩,
    ⟨ascii "content-type", ascii ""⟩,
    ⟨ascii "cookie", ascii ""⟩,
    ⟨ascii "date", ascii ""⟩,
    ⟨ascii "etag", ascii ""⟩,
    ⟨ascii "expect", ascii ""⟩,
    ⟨ascii "expires", ascii ""⟩,
    ⟨ascii "from", ascii ""⟩,
    ⟨ascii "host", ascii ""⟩,
    ⟨ascii "if-match", ascii ""⟩,
    ⟨ascii "if-modified-since", ascii ""⟩,
    ⟨ascii "if-none-match", ascii ""⟩,
    ⟨ascii "if-range", ascii ""⟩,
    ⟨ascii "if-unmodified-since", ascii ""⟩,
    ⟨ascii "last-modified", ascii ""⟩,
    ⟨ascii "link", ascii ""⟩,
    ⟨ascii "location", ascii ""⟩,
    ⟨ascii "max-forwards", ascii ""⟩,
    ⟨ascii "proxy-authenticate", ascii ""⟩,
    ⟨ascii "proxy-authorization", ascii ""⟩,
    ⟨ascii "range", ascii ""⟩,
    ⟨ascii "referer", ascii ""⟩,
    ⟨ascii "refresh", ascii ""⟩,
    ⟨ascii "retry-after", ascii ""⟩,
    ⟨ascii "server", ascii ""⟩,
    ⟨ascii "set-cookie", ascii ""⟩,
    ⟨ascii "strict-transport-security", ascii ""⟩,
    ⟨ascii "transfer-encoding", ascii ""⟩,
    ⟨ascii "user-agent", ascii ""⟩,
    ⟨ascii "vary", ascii ""⟩,
    ⟨ascii "via", ascii ""⟩,
    ⟨ascii "www-authenticate", ascii ""⟩]

/-- The index of the first static entry of a name. -/
def staticNameIndex (name : Bytes) : Option Nat :=
  (staticTable.findIdx? fun f => f.name == name).map (· + 1)

/-! ## The table of the RFC -/

/-- §2.3: the client's table, newest first, and the sizes that are set for it. -/
structure Rfc where
  table : List Field
  /-- The most the client may set the table to. -/
  allowed : Nat
  /-- What the client last set it to. -/
  capacity : Nat
  /-- A smaller size was announced, and the client has still to say so. -/
  owedUpdate : Bool

/-- §4.3: entries are evicted from the end until the table fits. -/
def Rfc.resize (t : Rfc) (size : Nat) : Rfc :=
  { t with capacity := size, table := fitting Field.weight size t.table, owedUpdate := false }

/-- §4.4: entries are evicted until the new one fits; one larger than the table empties it. -/
def Rfc.insert (t : Rfc) (f : Field) : Rfc :=
  { t with
    table :=
      if f.weight ≤ t.capacity then f :: fitting Field.weight (t.capacity - f.weight) t.table
      else [] }

/-- §2.3.3: one index space, the static table first; index 0 is no field. -/
def Rfc.lookup (t : Rfc) (index : Nat) : Option Field :=
  if index = 0 then none else (staticTable ++ t.table)[index - 1]?

/-! ## The decoder's table -/

/-- An entry, with the allocation its bytes are in: the name and then the value. -/
structure Entry where
  id : Nat
  bytes : Bytes
  nameLen : Nat
deriving DecidableEq, Repr

def Entry.field (e : Entry) : Field := ⟨e.bytes.take e.nameLen, e.bytes.drop e.nameLen⟩

def Entry.weight (e : Entry) : Nat := e.bytes.length + entryOverhead

/-- What a slice points at: bytes that outlive the block (it, the arena or the static table), or a
part of an entry, which is freed when it is evicted. -/
inductive Slice where
  | owned (b : Bytes)
  | entry (id start len : Nat)
deriving DecidableEq, Repr

def Slice.len : Slice → Nat
  | .owned b => b.length
  | .entry _ _ len => len

structure RefField where
  name : Slice
  value : Slice
deriving DecidableEq, Repr

def Field.owned (f : Field) : RefField := ⟨.owned f.name, .owned f.value⟩

def Entry.ref (e : Entry) : RefField :=
  ⟨.entry e.id 0 e.nameLen, .entry e.id e.nameLen (e.bytes.length - e.nameLen)⟩

structure Decoder where
  allowed : Nat
  capacity : Nat
  /-- What the entries weigh by §4.1's count. -/
  size : Nat
  /-- Newest last. -/
  entries : List Entry
  owedUpdate : Bool
  /-- How many allocations there have been. -/
  allocated : Nat
deriving DecidableEq, Repr

def defaultTableSize : Nat := 4096

def Decoder.init : Decoder := ⟨defaultTableSize, defaultTableSize, 0, [], false, 0⟩

/-- The client has acknowledged a table of `max`. -/
def Decoder.allow (self : Decoder) (max : Nat) : Decoder :=
  { self with allowed := max, owedUpdate := self.owedUpdate || decide (self.capacity > max) }

/-- The bytes of a slice, if they are not freed. -/
def Decoder.read (self : Decoder) : Slice → Run Bytes
  | .owned b => .ok b
  | .entry id start len =>
    match self.entries.find? (·.id == id) with
    | none => .error .range
    | some e => Mem.slice e.bytes start len

/-- The loop of `evictTo`: what is left of the size and of the entries. -/
def dropOver (limit : Nat) : Nat → List Entry → Run (Nat × List Entry)
  | size, [] => .ok (size, [])
  | size, e :: rest =>
    if size > limit then
      if size < e.weight then .error .overflow else dropOver limit (size - e.weight) rest
    else .ok (size, e :: rest)

def Decoder.evictTo (self : Decoder) (limit : Nat) : Run Decoder := do
  let (size, entries) ← dropOver limit self.size self.entries
  pure { self with size := size, entries := entries }

def Decoder.insert (self : Decoder) (f : RefField) : Run Decoder := do
  let weight := f.name.len + f.value.len + entryOverhead
  if weight > self.capacity then self.evictTo 0
  else
    -- Copied before anything is evicted: the entry a name is in may be one of those about to go.
    let name ← self.read f.name
    let value ← self.read f.value
    let self ← { self with allocated := self.allocated + 1 }.evictTo (self.capacity - weight)
    pure { self with
      entries := self.entries ++ [⟨self.allocated - 1, name ++ value, f.name.len⟩]
      size := self.size + weight }

/-- A field by index, and whether it is the static table's. -/
def Decoder.lookup (self : Decoder) (index : Nat) : Except Stop (RefField × Bool) :=
  if index = 0 then .error .compression
  else if index ≤ staticTable.length then
    match staticTable[index - 1]? with
    | some f => .ok (f.owned, true)
    | none => .error (.fault .range)
  else
    let d := index - staticTable.length - 1
    if d ≥ self.entries.length then .error .compression
    else
      match self.entries[self.entries.length - 1 - d]? with
      | some e => .ok (e.ref, false)
      | none => .error (.fault .range)

/-! ## The decoder's table is the RFC's -/

/-- The entries from newest to oldest are the RFC's table; each has an allocation of its own, and
they weigh together what the size says, which is within the capacity. -/
structure Refines (d : Decoder) (t : Rfc) : Prop where
  table : d.entries.reverse.map Entry.field = t.table
  allowed : d.allowed = t.allowed
  capacity : d.capacity = t.capacity
  owedUpdate : d.owedUpdate = t.owedUpdate
  size : d.size = total Field.weight t.table
  fits : d.size ≤ d.capacity
  distinct : (d.entries.map Entry.id).Nodup
  fresh : ∀ e ∈ d.entries, e.id < d.allocated
  /-- The name is within the bytes. -/
  within : ∀ e ∈ d.entries, e.nameLen ≤ e.bytes.length

def Rfc.init : Rfc := ⟨[], defaultTableSize, defaultTableSize, false⟩

def Rfc.allow (t : Rfc) (max : Nat) : Rfc :=
  { t with allowed := max, owedUpdate := t.owedUpdate || decide (t.capacity > max) }

theorem refines_init : Refines Decoder.init Rfc.init :=
  ⟨rfl, rfl, rfl, rfl, rfl, Nat.zero_le _, List.nodup_nil, fun _ h => (by cases h),
    fun _ h => (by cases h)⟩

theorem Refines.allow {d : Decoder} {t : Rfc} (h : Refines d t) (max : Nat) :
    Refines (d.allow max) (t.allow max) :=
  { table := h.table
    allowed := rfl
    capacity := h.capacity
    owedUpdate := by rw [Decoder.allow, Rfc.allow, h.owedUpdate, h.capacity]
    size := h.size
    fits := h.fits
    distinct := h.distinct
    fresh := h.fresh
    within := h.within }

theorem Entry.weight_eq (e : Entry) : e.weight = e.field.weight := by
  simp only [Entry.weight, Entry.field, Field.weight, List.length_take, List.length_drop]
  omega

/-- What is left after the loop of `evictTo` is the longest run of newest entries that fits. -/
theorem dropOver_eq (limit : Nat) (entries : List Entry) :
    ∃ left, dropOver limit (total Entry.weight entries) entries =
        .ok (total Entry.weight left, left) ∧ left <:+ entries ∧
      left.reverse = fitting Entry.weight limit entries.reverse := by
  induction entries with
  | nil => exact ⟨[], rfl, List.suffix_refl _, rfl⟩
  | cons e rest ih =>
    rw [dropOver, List.reverse_cons, Lib.fitting_snoc, Lib.total_reverse, Lib.total_cons]
    by_cases hover : e.weight + total Entry.weight rest > limit
    · obtain ⟨left, hdrop, hsuffix, hleft⟩ := ih
      refine ⟨left, ?_, hsuffix.trans (List.suffix_cons e rest), ?_⟩
      · rw [if_pos hover, if_neg (by omega), Nat.add_sub_cancel_left, hdrop]
      · rw [if_neg (by omega), hleft]
    · refine ⟨e :: rest, ?_, List.suffix_refl _, ?_⟩
      · rw [if_neg hover]
        rfl
      · rw [if_pos (by omega), List.reverse_cons]

variable {d : Decoder} {t : Rfc}

theorem Refines.size_entries (h : Refines d t) : d.size = total Entry.weight d.entries := by
  rw [h.size, ← h.table, ← Lib.total_reverse Entry.weight d.entries, total, total, List.map_map]
  exact congrArg List.sum (List.map_congr_left fun e _ => (e.weight_eq).symm)

/-- What `evictTo` does: it changes the entries and the size, and the entries are cut to the limit. -/
theorem Refines.evictTo (h : Refines d t) (limit : Nat) :
    ∃ left, d.evictTo limit = .ok { d with size := total Entry.weight left, entries := left } ∧
      left <:+ d.entries ∧
      left.reverse.map Entry.field = fitting Field.weight limit t.table := by
  obtain ⟨left, hdrop, hsuffix, hleft⟩ := dropOver_eq limit d.entries
  refine ⟨left, ?_, hsuffix, ?_⟩
  · rw [Decoder.evictTo, h.size_entries, hdrop]
    rfl
  · rw [hleft, ← h.table, Lib.fitting_map]
    simp only [← Entry.weight_eq]

/-- Both the capacity and the entries may be cut, to a limit within the capacity. -/
theorem Refines.cut (h : Refines d t) {left : List Entry} (hsuffix : left <:+ d.entries)
    {limit capacity capacity' allocated : Nat} {owed owed' : Bool}
    (hleft : left.reverse.map Entry.field = fitting Field.weight limit t.table)
    (hcapacity : capacity = capacity') (howed : owed = owed') (hlimit : limit ≤ capacity)
    (hfresh : d.allocated ≤ allocated) :
    Refines ⟨d.allowed, capacity, total Entry.weight left, left, owed, allocated⟩
      ⟨fitting Field.weight limit t.table, t.allowed, capacity', owed'⟩ := by
  have hsize : total Entry.weight left = total Field.weight (fitting Field.weight limit t.table) := by
    rw [← hleft, ← Lib.total_reverse Entry.weight left, total, total, List.map_map]
    exact congrArg List.sum (List.map_congr_left fun e _ => e.weight_eq)
  exact
    { table := hleft
      allowed := h.allowed
      capacity := hcapacity
      owedUpdate := howed
      size := hsize
      fits := by
        rw [hsize]
        exact Nat.le_trans (Lib.total_fitting_le Field.weight limit t.table) hlimit
      distinct := h.distinct.sublist (hsuffix.sublist.map Entry.id)
      fresh := fun e he => Nat.lt_of_lt_of_le (h.fresh e (hsuffix.subset he)) hfresh
      within := fun e he => h.within e (hsuffix.subset he) }

theorem Refines.resize (h : Refines d t) (size : Nat) :
    ∃ d', { d with capacity := size }.evictTo size = .ok d' ∧
      Refines { d' with owedUpdate := false } (t.resize size) := by
  obtain ⟨left, hevict, hsuffix, hleft⟩ := h.evictTo size
  refine ⟨{ d with capacity := size, size := total Entry.weight left, entries := left }, ?_, ?_⟩
  · have hsame : { d with capacity := size }.evictTo size =
        (d.evictTo size).map fun d' => { d' with capacity := size } := by
      simp only [Decoder.evictTo]
      cases dropOver size d.size d.entries <;> rfl
    rw [hsame, hevict]
    rfl
  · exact h.cut hsuffix hleft rfl rfl (Nat.le_refl _) (Nat.le_refl _)

/-! ## What a field points at -/

/-- A field's slices are not freed, and are the field's bytes. -/
structure Decoder.Reads (d : Decoder) (r : RefField) (f : Field) : Prop where
  name : d.read r.name = .ok f.name
  value : d.read r.value = .ok f.value
  nameLen : r.name.len = f.name.length
  valueLen : r.value.len = f.value.length

theorem reads_owned (d : Decoder) (f : Field) : d.Reads f.owned f := ⟨rfl, rfl, rfl, rfl⟩

theorem find_entry {entries : List Entry} (hdistinct : (entries.map Entry.id).Nodup) {e : Entry}
    (he : e ∈ entries) : entries.find? (·.id == e.id) = some e := by
  induction entries with
  | nil => cases he
  | cons x rest ih =>
    rw [List.map_cons, List.nodup_cons] at hdistinct
    rcases List.mem_cons.mp he with rfl | hrest
    · exact List.find?_cons_of_pos (beq_self_eq_true _)
    · have hne : x.id ≠ e.id := fun heq => hdistinct.1 (heq ▸ List.mem_map_of_mem hrest)
      rw [List.find?_cons_of_neg (by simpa using hne), ih hdistinct.2 hrest]

theorem Refines.read_entry (h : Refines d t) {e : Entry} (he : e ∈ d.entries) (start len : Nat) :
    d.read (.entry e.id start len) = Mem.slice e.bytes start len := by
  rw [Decoder.read, find_entry h.distinct he]

theorem Refines.reads_ref (h : Refines d t) {e : Entry} (he : e ∈ d.entries) :
    d.Reads e.ref e.field := by
  have hname : e.nameLen ≤ e.bytes.length := h.within e he
  refine ⟨?_, ?_, ?_, ?_⟩
  · exact (h.read_entry he _ _).trans (Mem.slice_ok (by omega))
  · have hall := List.take_length (l := e.bytes.drop e.nameLen)
    rw [List.length_drop] at hall
    exact (h.read_entry he _ _).trans ((Mem.slice_ok (by omega)).trans (congrArg _ hall))
  · exact (List.length_take_of_le hname).symm
  · exact (List.length_drop).symm

/-- An index is looked up to the RFC's field, and to nothing where the RFC has none. -/
theorem Refines.lookup (h : Refines d t) (index : Nat) :
    match t.lookup index with
    | none => d.lookup index = .error .compression
    | some f => ∃ r isStatic, d.lookup index = .ok (r, isStatic) ∧ d.Reads r f ∧
        (isStatic = true → r = f.owned) := by
  have hlen : t.table.length = d.entries.length := by
    rw [← h.table, List.length_map, List.length_reverse]
  rw [Decoder.lookup, Rfc.lookup]
  by_cases hzero : index = 0
  · rw [if_pos hzero, if_pos hzero]
  rw [if_neg hzero, if_neg hzero]
  by_cases hstatic : index ≤ staticTable.length
  · have hin : index - 1 < staticTable.length := by omega
    rw [if_pos hstatic, List.getElem?_append_left hin, List.getElem?_eq_getElem hin]
    exact ⟨_, true, rfl, reads_owned d _, fun _ => rfl⟩
  · rw [if_neg hstatic, List.getElem?_append_right (by omega)]
    have hindex : index - 1 - staticTable.length = index - staticTable.length - 1 := by omega
    rw [hindex]
    by_cases hpast : index - staticTable.length - 1 ≥ d.entries.length
    · rw [List.getElem?_eq_none (by omega), if_pos hpast]
    · -- Entry `d` from the newest is entry `length - 1 - d` of the list.
      have hin : d.entries.length - 1 - (index - staticTable.length - 1) < d.entries.length := by omega
      rw [if_neg hpast, List.getElem?_eq_getElem hin, ← h.table, List.getElem?_map,
        List.getElem?_reverse (by omega), List.getElem?_eq_getElem hin]
      exact ⟨_, false, rfl, h.reads_ref (List.getElem_mem hin), fun hfalse => (by cases hfalse)⟩

theorem fitting_zero (l : List Field) : fitting Field.weight 0 l = [] := by
  have hzero := Lib.total_fitting_le Field.weight 0 l
  cases hfit : fitting Field.weight 0 l with
  | nil => rfl
  | cons f rest =>
    rw [hfit, Lib.total_cons, Field.weight, entryOverhead] at hzero
    omega

/-- The entry a field is put in. -/
theorem field_append (name value : Bytes) (id : Nat) :
    Entry.field ⟨id, name ++ value, name.length⟩ = ⟨name, value⟩ := by
  rw [Entry.field, List.take_left', List.drop_left'] <;> rfl

/-- A field is inserted as the RFC does, also one whose name is that of an entry this evicts. -/
theorem Refines.insert (h : Refines d t) {r : RefField} {f : Field} (hreads : d.Reads r f) :
    ∃ d', d.insert r = .ok d' ∧ Refines d' (t.insert f) := by
  have hweight : r.name.len + r.value.len + entryOverhead = f.weight := by
    rw [hreads.nameLen, hreads.valueLen]
    rfl
  obtain ⟨table, allowed, capacity, owed⟩ := t
  obtain rfl : d.capacity = capacity := h.capacity
  rw [Decoder.insert, Rfc.insert, hweight]
  by_cases hlarge : f.weight > d.capacity
  · obtain ⟨left, hevict, hsuffix, hleft⟩ := h.evictTo 0
    have hcut := h.cut hsuffix hleft h.capacity h.owedUpdate (Nat.zero_le _) (Nat.le_refl _)
    rw [fitting_zero] at hcut
    rw [if_pos hlarge, if_neg (Nat.not_le_of_gt hlarge), hevict]
    exact ⟨_, rfl, hcut⟩
  · obtain ⟨left, hevict, hsuffix, hleft⟩ := h.evictTo (d.capacity - f.weight)
    have hcut := h.cut hsuffix hleft h.capacity h.owedUpdate (Nat.sub_le _ _)
      (Nat.le_succ d.allocated)
    have hsame : { d with allocated := d.allocated + 1 }.evictTo (d.capacity - f.weight) =
        (d.evictTo (d.capacity - f.weight)).map fun d' => { d' with allocated := d.allocated + 1 } := by
      simp only [Decoder.evictTo]
      cases dropOver (d.capacity - f.weight) d.size d.entries <;> rfl
    rw [if_neg hlarge, if_pos (Nat.le_of_not_lt hlarge), hreads.name, hreads.value, hsame, hevict]
    have hfits : total Entry.weight left + f.weight ≤ d.capacity := by
      have hsize : total Entry.weight left = _ := hcut.size
      have hle := Lib.total_fitting_le Field.weight (d.capacity - f.weight) table
      rw [← hsize] at hle
      omega
    refine ⟨_, rfl, ?_⟩
    exact
      { table := by
          simp only [List.reverse_append, List.reverse_singleton, List.singleton_append,
            List.map_cons, hleft, hreads.nameLen, field_append]
        allowed := h.allowed
        capacity := rfl
        owedUpdate := h.owedUpdate
        size := by
          rw [Lib.total_cons, ← hcut.size]
          exact Nat.add_comm _ _
        fits := hfits
        distinct := by
          have hnew : ∀ id ∈ left.map Entry.id, id ≠ d.allocated := by
            intro id hid
            obtain ⟨e, he, rfl⟩ := List.mem_map.mp hid
            exact Nat.ne_of_lt (h.fresh e (hsuffix.subset he))
          rw [List.map_append]
          exact List.nodup_append.mpr ⟨hcut.distinct, List.pairwise_singleton _ _, fun id hid id' hid' =>
            List.mem_singleton.mp hid' ▸ hnew id hid⟩
        fresh := by
          intro e he
          rcases List.mem_append.mp he with hleft | hlast
          · exact hcut.fresh e hleft
          · rw [List.mem_singleton.mp hlast]
            exact Nat.lt_succ_self _
        within := by
          intro e he
          rcases List.mem_append.mp he with hleft | hlast
          · exact hcut.within e hleft
          · rw [List.mem_singleton.mp hlast, hreads.nameLen]
            simp }

end Nilo.Hpack
