import Mathlib.Data.Finset.Card
import ShaderSplit.Proofs.Header.Objects

namespace ShaderSplit

namespace Hex

theorem value?_lower {n : Nat} (hn : n < 16) : value? (lower.getD n '0') = some n :=
  (by decide : ∀ n : Fin 16, value? (lower.getD n '0') = some n.val) ⟨n, hn⟩

theorem decode?_byte (b : UInt8) : decode? (byte lower b) = some [b] := by
  have hb : b.toNat < 256 := b.toNat_lt
  have hhigh := value?_lower (n := b.toNat / 16) (by omega)
  have hlow := value?_lower (n := b.toNat % 16) (by omega)
  simp only [byte, decode?, hhigh, hlow, Option.bind_eq_bind, Option.bind_some, Nat.div_add_mod]
  simp

end Hex

/-- What is read of a blob: the lines of its comment, the name of its array behind `_hshs_`,
and the bytes. -/
structure ReadBlob where
  comment : List String
  name : String
  data : List UInt8
  deriving DecidableEq, Repr

namespace BlobReader

def terminator : List Char := ['*', '/']

/-- The bytes of a row; each is written as `0x`, two digits and a comma. -/
def bytes? : List Char → Option (List UInt8)
  | [] => some []
  | ' ' :: rest => bytes? rest
  | '0' :: 'x' :: h :: l :: ',' :: rest => do return (← Hex.decode? [h, l]) ++ (← bytes? rest)
  | _ => none

def arrayName? (line : List Char) : Option String := do
  let rest ← "inline const unsigned char _hshs_".toList.isPrefixOf? line
  let name ← "[] = \x7b".toList.isSuffixOf? rest
  return String.ofList name

inductive Phase where
  | title
  | comment (lines : List String)
  | array (comment : List String)
  | row (read : ReadBlob)
  | object
  | blank

structure State where
  phase : Phase
  done : List ReadBlob

/-- A comment ends at a line that is its terminator; a terminator within a line is refused. The line
that declares the object says nothing of the array, and is passed over. -/
def step (s : State) (line : String) : Option State :=
  match s.phase with
  | .title =>
    if ['/', '*'] <+: line.toList ∧
      ¬ terminator <:+: line.toList then some { s with phase := .comment [line] }
    else none
  | .comment lines =>
    if line = "*/" then some { s with phase := .array lines }
    else if terminator <:+: line.toList then none
    else some { s with phase := .comment (lines ++ [line]) }
  | .array comment => do
    let name ← arrayName? line.toList
    -- the comment is complete, and bytes follow
    return { s with phase := .row ⟨comment, name, []⟩ }
  | .row r =>
    if line = "\x7d;" then some ⟨.object, s.done ++ [r]⟩
    else do
      let bytes ← bytes? line.toList
      return { s with phase := .row { r with data := r.data ++ bytes } }
  | .object => some { s with phase := .blank }
  | .blank => if line = "" then some { s with phase := .title } else none

/-- All blobs of a section; it ends where another one could begin. -/
def read? (lines : List String) : Option (List ReadBlob) := do
  let s ← lines.foldlM step ⟨.title, []⟩
  match s.phase with
  | .title => some s.done
  | _ => none

def byteText (b : UInt8) : List Char := [' ', '0', 'x'] ++ Hex.byte Hex.lower b ++ [',']

theorem bytes?_flatMap (row : List UInt8) : bytes? (row.flatMap byteText) = some row := by
  induction row with
  | nil => rfl
  | cons b row ih =>
    have hb : bytes? (byteText b ++ row.flatMap byteText) =
        (do return (← Hex.decode? (Hex.byte Hex.lower b)) ++ (← bytes? (row.flatMap byteText))) :=
        rfl
    rw [List.flatMap_cons, hb, Hex.decode?_byte, ih]
    rfl

theorem intercalate_byteText (b : UInt8) (row : List UInt8) :
    [' '] ++ List.intercalate [',', ' ']
      ((b :: row).map fun b => ['0', 'x'] ++ Hex.byte Hex.lower b) ++ [','] =
      (b :: row).flatMap byteText := by
  induction row generalizing b with
  | nil => simp [byteText]
  | cons b' row ih =>
    rw [List.flatMap_cons, ← ih b']
    simp [byteText]

theorem rowText_toList {row : List UInt8} (h : row ≠ []) :
    (Blob.rowText row).toList = ' ' :: row.flatMap byteText := by
  obtain ⟨b, row, rfl⟩ := List.exists_cons_of_ne_nil h
  rw [← intercalate_byteText]
  simp [Blob.rowText, String.toList_intercalate, Function.comp_def]

theorem bytes?_rowText {row : List UInt8} (h : row ≠ []) :
    bytes? (Blob.rowText row).toList = some row := by
  rw [rowText_toList h]
  exact bytes?_flatMap row

theorem rowText_ne_close {row : List UInt8} (h : row ≠ []) : Blob.rowText row ≠ "\x7d;" := by
  intro he
  have hlist := congrArg String.toList he
  rw [rowText_toList h] at hlist
  simp at hlist

theorem rows_ne_nil {data row : List UInt8} (h : row ∈ Blob.rows data) : row ≠ [] := by
  obtain ⟨i, hi, rfl⟩ := List.mem_map.1 h
  have hi := List.mem_range.1 hi
  apply List.ne_nil_of_length_pos
  rw [List.length_take, List.length_drop]
  omega

theorem rows_flatten (data : List UInt8) : (Blob.rows data).flatten = data := by
  have htake : ∀ k, ((List.range k).map fun i => (data.drop (16 * i)).take 16).flatten =
        data.take (16 * k) := by
    intro k
    induction k with
    | zero => simp
    | succ k ih => simp [List.range_succ, ih, Nat.mul_succ, List.take_add]
  unfold Blob.rows
  rw [htake, List.take_of_length_le]
  omega

theorem breakTerminator_head? (l : List Char) : (Blob.breakTerminator l).head? = l.head? := by
  fun_cases Blob.breakTerminator l <;> rfl

theorem breakTerminator_terminator (l : List Char) : ¬ terminator <:+: Blob.breakTerminator l := by
  fun_induction Blob.breakTerminator l with
  | case1 => simp [terminator]
  | case2 rest ih => simpa [terminator, List.infix_cons_iff] using ih
  | case3 c rest hrest ih =>
    intro hend
    rcases List.infix_cons_iff.1 hend with hhere | hlater
    · -- the text starts as the broken one does, so it is the terminator that would have been broken
      obtain ⟨rfl, hslash⟩ := List.cons_prefix_cons.1 hhere
      obtain ⟨tail, htail⟩ := hslash
      have hhead := breakTerminator_head? rest
      rw [← htail] at hhead
      obtain ⟨tail', rfl⟩ := List.head?_eq_some_iff.1 hhead.symm
      exact hrest tail' rfl rfl
    · exact ih hlater

theorem commentLines_terminator {text l : String} (h : l ∈ Blob.commentLines text) :
    ¬ terminator <:+: l.toList := by
  obtain ⟨l, -, rfl⟩ := List.mem_map.1 h
  rw [String.toList_ofList]
  exact breakTerminator_terminator l

theorem terminator_cons {c : Char} {l : List Char} (h : '/' ∉ l) : ¬ terminator <:+: c :: l := by
  rintro ⟨before, after, he⟩
  apply h
  cases before with
  | nil =>
    obtain ⟨-, rfl⟩ := List.cons.inj he
    exact List.mem_cons_self
  | cons x before =>
    obtain ⟨-, rfl⟩ := List.cons.inj he
    simp [terminator]

theorem title_opens (s : Stage) (t : Target) :
    ['/', '*'] <+: (s!"/* {s} source targeting {t}").toList ∧
    ¬ terminator <:+: (s!"/* {s} source targeting {t}").toList := by
  have htitle : (s!"/* {s} source targeting {t}").toList =
      '/' :: ("* ".toList ++ s.name.toList ++ " source targeting ".toList ++
        t.name.toList) := by simp [toString]
  have hstage : '/' ∉ s.name.toList := by cases s <;> decide
  have htarget : '/' ∉ t.name.toList := by cases t <;> decide
  rw [htitle]
  refine ⟨⟨_, rfl⟩, terminator_cons ?_⟩
  simp [hstage, htarget]

theorem foldlM_step_cons {s s' s'' : State} {line : String} {lines : List String}
    (h : step s line = some s') (hs : lines.foldlM step s' = some s'') :
    (line :: lines).foldlM step s = some s'' := by
  rw [List.foldlM_cons, h]
  exact hs

theorem foldlM_step_append {s s' s'' : State} {lines lines' : List String}
    (h : lines.foldlM step s = some s') (h' : lines'.foldlM step s' = some s'') :
    (lines ++ lines').foldlM step s = some s'' := by
  rw [List.foldlM_append, h]
  exact h'

theorem foldlM_comment (done : List ReadBlob) (start lines : List String)
    (h : ∀ l ∈ lines, ¬ terminator <:+: l.toList) :
    lines.foldlM step ⟨.comment start, done⟩ = some ⟨.comment (start ++ lines), done⟩ := by
  induction lines generalizing start with
  | nil => simp
  | cons l lines ih =>
    obtain ⟨hl, hlines⟩ := List.forall_mem_cons.1 h
    have hend : l ≠ "*/" := by
      rintro rfl
      exact hl (by decide)
    have hstep : step ⟨.comment start, done⟩ l = some ⟨.comment (start ++ [l]), done⟩ := by
      simp [step, hend, hl]
    rw [List.append_cons]
    exact foldlM_step_cons hstep (ih _ hlines)

theorem foldlM_rows (done : List ReadBlob) (r : ReadBlob) (rows : List (List UInt8))
    (h : ∀ row ∈ rows, row ≠ []) :
    (rows.map Blob.rowText).foldlM step ⟨.row r, done⟩ =
      some ⟨.row { r with data := r.data ++ rows.flatten }, done⟩ := by
  induction rows generalizing r with
  | nil => simp
  | cons row rows ih =>
    obtain ⟨hrow, hrows⟩ := List.forall_mem_cons.1 h
    have hstep :
        step ⟨.row r, done⟩ (Blob.rowText row) =
          some ⟨.row { r with data := r.data ++ row }, done⟩ := by
      simp [step, rowText_ne_close hrow, bytes?_rowText hrow]
    rw [List.flatten_cons, ← List.append_assoc]
    exact foldlM_step_cons hstep (ih _ hrows)

theorem arrayName?_hex (hex : String) :
    arrayName? (s!"inline const unsigned char _hshs_{hex}[] = \x7b").toList = some hex := by
  have hopen : "inline const unsigned char _hshs_".toList.isPrefixOf?
      (s!"inline const unsigned char _hshs_{hex}[] = \x7b").toList =
        some (hex.toList ++ "[] = \x7b".toList) := by
    rw [List.isPrefixOf?_eq_some_iff_append_eq]
    simp [toString]
  have hclose :
      "[] = \x7b".toList.isSuffixOf? (hex.toList ++ "[] = \x7b".toList) = some hex.toList :=
    List.isSuffixOf?_eq_some_iff_append_eq.2 rfl
  simp only [arrayName?, hopen, hclose, Option.bind_eq_bind, Option.bind_some, Option.pure_def,
    String.ofList_toList]

def readOf (b : Blob) : ReadBlob :=
  ⟨s!"/* {b.source.stage} source targeting {b.target}" :: "" :: Blob.commentLines b.source.text,
    b.hash.short, b.data⟩

theorem readOf_terminator (b : Blob) : ∀ l ∈ (readOf b).comment, ¬ terminator <:+: l.toList := by
  intro l hl
  rcases List.mem_cons.1 hl with rfl | hl
  · exact (title_opens _ _).2
  rcases List.mem_cons.1 hl with rfl | hl
  · decide
  · exact commentLines_terminator hl

theorem foldlM_lines (c : Catalog) (b : Blob) (done : List ReadBlob) :
    (b.lines c).foldlM step ⟨.title, done⟩ = some ⟨.title, done ++ [readOf b]⟩ := by
  let title := s!"/* {b.source.stage} source targeting {b.target}"
  let array := s!"inline const unsigned char _hshs_{b.hash.short}[] = \x7b"
  -- of all lines, only the one that declares the object depends on the catalog
  obtain ⟨object, hlines⟩ :
      ∃ object, b.lines c = title :: ("" :: Blob.commentLines b.source.text) ++
      "*/" :: array :: (Blob.rows b.data).map Blob.rowText ++ ["\x7d;", object, ""] :=
    ⟨_, by simp only [Blob.lines, List.cons_append, List.nil_append, List.append_assoc]; rfl⟩
  have htitle : step ⟨.title, done⟩ title = some ⟨.comment [title], done⟩ :=
    if_pos (title_opens _ _)
  have hcomment := foldlM_comment done [title] ("" :: Blob.commentLines b.source.text)
    (fun l hl => readOf_terminator b l (List.mem_cons_of_mem _ hl))
  have hend : step ⟨.comment (readOf b).comment, done⟩ "*/" =
      some ⟨.array (readOf b).comment, done⟩ := rfl
  have harray : step ⟨.array (readOf b).comment, done⟩ array =
      some ⟨.row ⟨(readOf b).comment, b.hash.short, []⟩, done⟩ := by
    simp only [step, array, arrayName?_hex]
    rfl
  have hrows := foldlM_rows done ⟨(readOf b).comment, b.hash.short, []⟩ (Blob.rows b.data)
    (fun _ hrow => rows_ne_nil hrow)
  rw [rows_flatten] at hrows
  have hclose : ["\x7d;", object, ""].foldlM step ⟨.row (readOf b), done⟩ =
      some ⟨.title, done ++ [readOf b]⟩ := rfl
  rw [hlines]
  apply foldlM_step_append _ hclose
  exact foldlM_step_append (foldlM_step_cons htitle hcomment)
    (foldlM_step_cons hend (foldlM_step_cons harray hrows))

theorem foldlM_blobs (c : Catalog) (bs : List Blob) (done : List ReadBlob) :
    (bs.flatMap (Blob.lines c)).foldlM step ⟨.title, done⟩ =
      some ⟨.title, done ++ bs.map readOf⟩ := by
  induction bs generalizing done with
  | nil => simp
  | cons b bs ih =>
    rw [List.flatMap_cons, List.map_cons, List.append_cons]
    exact foldlM_step_append (foldlM_lines c b done) (ih _)

theorem read?_blobs (c : Catalog) (bs : List Blob) :
    read? (bs.flatMap (Blob.lines c)) = some (bs.map readOf) := by
  rw [read?, foldlM_blobs]
  rfl

-- a source that could end its comment is not read
example : read?
      ["/* vertex source targeting glsl", "", "a */ b", "*/",
      "inline const unsigned char _hshs_0f[] = \x7b", "  0x01, 0xff,", "\x7d;", "", ""] = none := by
  decide +kernel

end BlobReader

namespace BlobStore

theorem any_hash (s : BlobStore) (x : ContentHash) :
    (s.blobs.any (·.hash == x) = true) ↔ x ∈ s.blobs.map (·.hash) := by
  simp only [List.any_eq_true, List.mem_map, beq_iff_eq]

theorem add_total (s : BlobStore) (b : Blob) :
    (s.add b).blobs.length + (s.add b).shared = s.blobs.length + s.shared + 1 := by
  unfold add
  split
  · exact (Nat.add_assoc _ _ _).symm
  · simp only [List.length_append, List.length_singleton]
    omega

theorem foldl_add_total (bs : List Blob) (s : BlobStore) :
    (bs.foldl add s).blobs.length + (bs.foldl add s).shared =
      s.blobs.length + s.shared + bs.length := by
  induction bs generalizing s with
  | nil => rfl
  | cons b bs ih =>
    rw [List.foldl_cons, ih, add_total, List.length_cons]
    omega

theorem foldl_add_hashes (bs : List Blob) :
    (bs.foldl add empty).blobs.map (·.hash) = (bs.map (·.hash)).eraseDups := by
  induction bs using List.reverseRecOn with
  | nil => rfl
  | append_singleton bs b ih =>
    rw [List.foldl_append, List.map_append, List.map_singleton, List.eraseDups_append, ← ih,
      List.foldl_cons, List.foldl_nil]
    -- the store tells a blob that was met by the hashes it holds, which are those of the list
    have hmet := any_hash (bs.foldl add empty) b.hash
    rw [ih, List.mem_eraseDups] at hmet
    by_cases hb : b.hash ∈ bs.map (·.hash)
    · have hrest : [b.hash].removeAll (bs.map (·.hash)) = [] := by simpa [List.removeAll] using hb
      rw [add, if_pos (hmet.2 hb), hrest]
      simp
    · have hrest : [b.hash].removeAll (bs.map (·.hash)) = [b.hash] := by
        simpa [List.removeAll] using hb
      rw [add, if_neg (mt hmet.1 hb), hrest, List.eraseDups_cons]
      simp

/-- What is stored is the first blob of its hash. -/
theorem foldl_add_first (bs : List Blob) {b : Blob} (hb : b ∈ (bs.foldl add empty).blobs) :
    bs.find? (·.hash == b.hash) = some b := by
  have hstored :
      (bs.foldl add empty).blobs.find? (·.hash == b.hash) = bs.find? (·.hash == b.hash) :=
    foldl_add_find? bs empty b.hash
  have hnodup := foldl_add_nodup bs (s := empty) List.nodup_nil
  rw [← hstored]
  cases hfound : (bs.foldl add empty).blobs.find? (·.hash == b.hash) with
  | none => exact absurd (beq_self_eq_true b.hash) (List.find?_eq_none.1 hfound b hb)
  | some b' =>
    have hhash : b'.hash = b.hash := by simpa using List.find?_some hfound
    rw [List.inj_on_of_nodup_map hnodup (List.mem_of_find?_eq_some hfound) hb hhash]

end BlobStore

structure SourcedBinary where
  target : Target
  source : StageSource
  binary : StageBinary

namespace SourcedBinary

def hash (b : SourcedBinary) : ContentHash := .of b.binary.data

def blob (b : SourcedBinary) : Blob := ⟨b.target, b.source, b.binary.stage, b.binary.data, b.hash⟩

def ofOutput (o : TargetOutput) : List SourcedBinary :=
  ((o.sources.zip o.binaries).filter fun (_, b) => !b.data.isEmpty).map fun (s, b) =>
    ⟨o.target, s, b⟩

theorem of?_eq (t : Target) (s : StageSource) (b : StageBinary) :
    Blob.of? t s b = if !b.data.isEmpty then some (blob ⟨t, s, b⟩) else none := by
  unfold Blob.of? StageBinary.hash
  cases b.data.isEmpty <;> rfl

theorem blobsOf_eq (os : List TargetOutput) :
    BlobStore.blobsOf os = (os.flatMap ofOutput).map blob := by
  rw [List.map_flatMap]
  apply List.flatMap_congr
  intro o _
  rw [ofOutput, List.map_map, ← List.filterMap_eq_map, List.filterMap_filter]
  simp only [of?_eq]
  rfl

end SourcedBinary

namespace Header

/-- The header after some calls, each with a program and its outputs. -/
def ofCalls (calls : List (Program × List TargetOutput)) : Header :=
  calls.foldl (fun h x => h.add x.1 x.2) .empty

theorem foldl_add_store (calls : List (Program × List TargetOutput)) (h : Header) :
    (calls.foldl (fun h x => h.add x.1 x.2) h).store =
      (calls.flatMap fun x => BlobStore.blobsOf x.2).foldl BlobStore.add h.store := by
  induction calls generalizing h with
  | nil => rfl
  | cons x calls ih =>
    rw [List.foldl_cons, ih, List.flatMap_cons, List.foldl_append]
    rfl

def binariesOf (calls : List (Program × List TargetOutput)) : List SourcedBinary :=
  calls.flatMap fun x => x.2.flatMap SourcedBinary.ofOutput

theorem ofCalls_store (calls : List (Program × List TargetOutput)) :
    (ofCalls calls).store = ((binariesOf calls).map SourcedBinary.blob).foldl
      BlobStore.add .empty := by
  rw [ofCalls, foldl_add_store, binariesOf, List.map_flatMap]
  simp only [SourcedBinary.blobsOf_eq]
  rfl

end Header

/-- The comment holds the source under its title, and none of its lines ends it; the array is named
by the hash and holds the data. -/
structure ReadBlob.Holds (r : ReadBlob) (b : SourcedBinary) : Prop where
  comment : r.comment = s!"/* {b.source.stage} source targeting {b.target}" :: "" ::
    Blob.commentLines b.source.text
  unended : ∀ l ∈ r.comment, ¬ BlobReader.terminator <:+: l.toList
  name : r.name = b.hash.short
  data : r.data = b.binary.data

theorem BlobReader.readOf_holds (b : SourcedBinary) : (readOf b.blob).Holds b :=
  ⟨rfl, readOf_terminator _, rfl, rfl⟩

namespace Header

/-- A header that stores each content of some binaries once, with what is read where its
blobs are written. -/
structure StoresOnce (c : Catalog) (d : DeclIndex) (fileName : String) (bs : List SourcedBinary)
    (h : Header) : Prop where
  distinct : h.store.blobs.length = (bs.map (·.hash)).toFinset.card
  total : h.store.blobs.length + h.store.shared = bs.length
  arrays : ∃ blobs reads,
    h.lines c d fileName = [s!"/* Auto-generated hshhead for {fileName} */", ""] ++ blobs
      ++ (["namespace \x7b", ""] ++ h.classes.flatMap (PipelineClass.lines c d) ++ ["\x7d"]) ∧
    BlobReader.read? blobs = some reads ∧
    List.Forall₂ (fun x r => ∃ b, bs.find? (·.hash == x) = some b ∧ r.Holds b)
      (bs.map (·.hash)).eraseDups reads

variable (calls : List (Program × List TargetOutput))

theorem ofCalls_hashes :
    (ofCalls calls).store.blobs.map (·.hash) = ((binariesOf calls).map (·.hash)).eraseDups := by
  rw [ofCalls_store, BlobStore.foldl_add_hashes, List.map_map]
  rfl

theorem ofCalls_length :
    (ofCalls calls).store.blobs.length = ((binariesOf calls).map (·.hash)).toFinset.card := by
  have hnodup : ((ofCalls calls).store.blobs.map (·.hash)).Nodup := by
    rw [ofCalls_store]
    exact BlobStore.foldl_add_nodup _ List.nodup_nil
  rw [← List.length_map (f := (·.hash)), ← List.toFinset_card_of_nodup hnodup, ofCalls_hashes]
  congr 1
  ext x
  simp only [List.mem_toFinset, List.mem_eraseDups]

theorem ofCalls_first {b : Blob} (hb : b ∈ (ofCalls calls).store.blobs) :
    ∃ b', (binariesOf calls).find? (·.hash == b.hash) = some b' ∧ b'.blob = b := by
  rw [ofCalls_store] at hb
  have hfirst := BlobStore.foldl_add_first _ hb
  rw [List.find?_map] at hfirst
  exact Option.map_eq_some_iff.1 hfirst

/-- Over any calls, each content is stored once, as the first binary that has it. -/
theorem ofCalls_storesOnce (c : Catalog) (d : DeclIndex) (fileName : String) :
    (ofCalls calls).StoresOnce c d fileName (binariesOf calls) where
  distinct := ofCalls_length calls
  total := by
    rw [ofCalls_store, BlobStore.foldl_add_total, List.length_map]
    simp [BlobStore.empty]
  arrays := by
    refine ⟨(ofCalls calls).store.blobs.flatMap (Blob.lines c), _, ?_,
      BlobReader.read?_blobs c _, ?_⟩
    · simp only [lines, List.append_assoc]
    rw [← ofCalls_hashes, List.forall₂_map_left_iff, List.forall₂_map_right_iff, List.forall₂_same]
    intro b hb
    obtain ⟨b', hfirst, rfl⟩ := ofCalls_first calls hb
    exact ⟨b', hfirst, BlobReader.readOf_holds b'⟩

end Header
end ShaderSplit
