import Apue.Appending
import Apue.Ipp
import Apue.PrintClient

/-!
The request that printer_thread sends to the printer for a job. It sets up an IPP header
and an HTTP header in two buffers, and sends the HTTP header, the IPP header, one byte more
for plain text, and the file. What is sent is decoded by the rules of IPP, and the headers
fit in their buffers as long as the names in them are not too long together.
-/
namespace Apue.Printer

open Programs Decimal Buffers Print

def IBUFSZ : ℕ := 512
def HBUFSZ : ℕ := 512
def IPP_PORT : ℕ := 631
def OP_PRINT_JOB : ℕ := 2
def TAG_OPERATION_ATTR : Byte := 1
def TAG_END_OF_ATTR : Byte := 3
def TAG_NAMEWOLANG : Byte := 0x42
def TAG_URI : Byte := 0x45
def TAG_CHARSET : Byte := 0x47
def TAG_NATULANG : Byte := 0x48
def TAG_MIMETYPE : Byte := 0x49

/-- The size of the array str in printer_thread. -/
def STRSZ : ℕ := 64

def ascii (text : String) : List Byte := text.toList.map fun c => UInt8.ofNat c.toNat

/-- Two bytes, the more significant one first. -/
def be16 (n : ℕ) : List Byte := [UInt8.ofNat (n / 2 ^ 8), UInt8.ofNat n]

/-- The string in an array. To look for its null beyond the array is not defined. -/
def stringIn (array : List Byte) : Option (List Byte) :=
  if 0 ∈ array then some (array.takeWhile fun b => b != 0) else none

/-- The strings are given without their nulls. -/
def addOption (tag : Byte) (optname optval : List Byte) (icp : Cursor Byte) :
    Option (Cursor Byte) := do
  let icp ← icp.push tag
  let icp ← icp.pushAll (be16 optname.length)
  let icp ← icp.copy 0 optname
  let icp ← icp.pushAll (be16 optval.length)
  icp.copy 0 optval

/-- `sprintf(str, "http://%s/ipp", printer_name)` -/
def printerUri (printerName : List Byte) : Option (List Byte) :=
  let str := ascii "http://" ++ printerName ++ ascii "/ipp"
  if str.length + 1 ≤ STRSZ then some str else none

def isText (req : PrintReq) : Bool := req.flags &&& PR_TEXT ≠ 0

def documentFormat (req : PrintReq) : List Byte :=
  if isText req then ascii "text/plain" else ascii "application/postscript"

/-- The byte `\b` in front of plain text. -/
def extra (req : PrintReq) : List Byte := if isText req then [8] else []

/-- The strings that go into the IPP header. -/
structure Names where
  str : List Byte
  usernm : List Byte
  jobnm : List Byte
  format : List Byte

def names (printerName : List Byte) (req : PrintReq) : Option Names := do
  let str ← printerUri printerName
  let usernm ← stringIn req.usernm
  let jobnm ← stringIn req.jobnm
  some ⟨str, usernm, jobnm, documentFormat req⟩

/-- The header with its four members, the attributes and the tag at the end. -/
def putIppHeader (jobid : ℤ) (n : Names) (icp : Cursor Byte) : Option (Cursor Byte) := do
  let icp ← icp.push 1
  let icp ← icp.push 1
  let icp ← icp.pushAll (be16 OP_PRINT_JOB)
  let icp ← icp.pushAll (be32 (jobid % 2 ^ 32).toNat)
  let icp ← icp.push TAG_OPERATION_ATTR
  let icp ← addOption TAG_CHARSET (ascii "attributes-charset") (ascii "utf-8") icp
  let icp ← addOption TAG_NATULANG (ascii "attributes-natural-language") (ascii "en-us") icp
  let icp ← addOption TAG_URI (ascii "printer-uri") n.str icp
  let icp ← addOption TAG_NAMEWOLANG (ascii "requesting-user-name") n.usernm icp
  let icp ← addOption TAG_NAMEWOLANG (ascii "job-name") n.jobnm icp
  let icp ← addOption TAG_MIMETYPE (ascii "document-format") n.format icp
  icp.push TAG_END_OF_ATTR

/-- The IPP header in ibuf; the pointer is at its end. -/
def ippHeader (ibuf : ℕ → Byte) (jobid : ℤ) (req : PrintReq) (printerName : List Byte) :
    Option (Cursor Byte) := do
  let n ← names printerName req
  putIppHeader jobid n (⟨IBUFSZ, ibuf⟩, 0)

/-- The HTTP header in hbuf for a content of `length` bytes. Each sprintf stores a string at
the pointer, which is then moved to the end of the string. -/
def httpHeader (hbuf : ℕ → Byte) (length : ℕ) (printerName : List Byte) :
    Option (Cursor Byte) := do
  let hcp ← Cursor.copy 0 (ascii "POST /ipp HTTP/1.1\r\n") (⟨HBUFSZ, hbuf⟩, 0)
  let hcp ← hcp.copy 0 (ascii "Content-Length: " ++ decimal length ++ ascii "\r\n")
  let hcp ← hcp.copy 0 (ascii "Content-Type: application/ipp\r\n")
  let hcp ← hcp.copy 0 (ascii "Host: " ++ printerName ++ ascii ":" ++ decimal IPP_PORT ++
    ascii "\r\n")
  let hcp ← hcp.push 13
  hcp.push 10

/-- The loop that sends the file. A read that fails ends it without success. -/
def copyFile : ℕ → Prog clientSig Bool
  | 0 => .diverge
  | fuel + 1 =>
    .call (.read IOBUFSZ) fun
      | .error _ => .ret false
      | .ok [] => .ret true
      | .ok (b :: block) => do
        let nw ← writen (b :: block)
        if nw ≠ (b :: block).length then return false else copyFile fuel

/-- The byte in front of plain text, and the file. -/
def sendContent (fuel : ℕ) (req : PrintReq) : Prog clientSig Bool :=
  if isText req then
    .call (.write [8]) fun
      | some 1 => copyFile fuel
      | _ => .ret false
  else copyFile fuel

/-- The part of printer_thread from the IPP header to the end of the file, once the file of
`size` bytes is open and the printer is connected. A call of writev sends the two headers
one after the other. -/
def sendJob (fuel : ℕ) (ibuf hbuf : ℕ → Byte) (jobid : ℤ) (req : PrintReq)
    (printerName : List Byte) (size : ℕ) : Prog clientSig Bool :=
  match ippHeader ibuf jobid req printerName with
  | none => .abort "IPP header beyond its buffer"
  | some icp =>
    match httpHeader hbuf (size + icp.text.length + (extra req).length) printerName with
    | none => .abort "HTTP header beyond its buffer"
    | some hcp =>
      .call (.write (hcp.text ++ icp.text)) fun n : Option ℕ =>
        if n ≠ some (hcp.text.length + icp.text.length) then .ret false else sendContent fuel req

/-- The items of the request: the group of the operation with its six attributes. -/
def requestItems (n : Names) : List Ipp.Item :=
  [.group TAG_OPERATION_ATTR,
    .attr TAG_CHARSET (ascii "attributes-charset") (ascii "utf-8"),
    .attr TAG_NATULANG (ascii "attributes-natural-language") (ascii "en-us"),
    .attr TAG_URI (ascii "printer-uri") n.str,
    .attr TAG_NAMEWOLANG (ascii "requesting-user-name") n.usernm,
    .attr TAG_NAMEWOLANG (ascii "job-name") n.jobnm,
    .attr TAG_MIMETYPE (ascii "document-format") n.format]

/-- The request for a job: version 1.1 and the operation Print-Job. -/
def requestMessage (jobid : ℤ) (n : Names) (data : List Byte) : Ipp.Message :=
  ⟨1, 1, OP_PRINT_JOB, jobid, requestItems n, data⟩

/-- The HTTP header of a request with a content of `length` bytes, up to the blank line. -/
def httpText (length : ℕ) (printerName : List Byte) : List Byte :=
  ascii "POST /ipp HTTP/1.1\r\n" ++ (ascii "Content-Length: " ++ decimal length ++ ascii "\r\n" ++
    (ascii "Content-Type: application/ipp\r\n" ++ (ascii "Host: " ++ printerName ++ ascii ":" ++
      decimal IPP_PORT ++ ascii "\r\n" ++ ([13] ++ [10]))))

theorem be16_eq (n : ℕ) : be16 n = Ipp.number 2 n := by
  simp [be16, Ipp.number]

theorem be32_eq (n : ℕ) : be32 n = Ipp.number 4 n := by
  simp [be32, Ipp.number]

theorem appends_addOption (tag : Byte) (optname optval : List Byte) :
    Appends (addOption tag optname optval) (Ipp.Item.attr tag optname optval).encode 1 := by
  have hencode : (Ipp.Item.attr tag optname optval).encode = [tag] ++ (be16 optname.length ++
      (optname ++ (be16 optval.length ++ optval))) := by
    simp only [Ipp.Item.encode, Ipp.counted, be16_eq, List.append_assoc, List.singleton_append]
  rw [hencode]
  exact (appends_push tag).bind ((appends_pushAll (be16 optname.length)).bind
    ((appends_copy 0 optname).bind ((appends_pushAll (be16 optval.length)).bind
      (appends_copy 0 optval) (Nat.zero_le _)) (Nat.le_add_left 1 _)) (Nat.zero_le _))
    (Nat.zero_le _)

theorem length_attr (tag : Byte) (optname optval : List Byte) :
    (Ipp.Item.attr tag optname optval).encode.length = 5 + optname.length + optval.length := by
  simp only [Ipp.Item.encode, List.length_cons, List.length_append, Ipp.length_counted]
  omega

/-- What comes after an option overwrites the null that it leaves. -/
theorem appends_options {f : Cursor Byte → Option (Cursor Byte)} {part : List Byte} {slack : ℕ}
    (tag : Byte) (optname optval : List Byte) (hf : Appends f part slack)
    (hpart : 1 ≤ part.length + slack) :
    Appends (fun icp => addOption tag optname optval icp >>= f)
      ((Ipp.Item.attr tag optname optval).encode ++ part) slack :=
  (appends_addOption tag optname optval).bind hf hpart

theorem appends_putIppHeader (jobid : ℤ) (n : Names) (data : List Byte) :
    Appends (putIppHeader jobid n) (requestMessage jobid n data).header 0 := by
  have hheader : (requestMessage jobid n data).header = [1] ++ ([1] ++ (be16 OP_PRINT_JOB ++
      (be32 (jobid % 2 ^ 32).toNat ++ ([TAG_OPERATION_ATTR] ++
      ((Ipp.Item.attr TAG_CHARSET (ascii "attributes-charset") (ascii "utf-8")).encode ++
      ((Ipp.Item.attr TAG_NATULANG (ascii "attributes-natural-language")
        (ascii "en-us")).encode ++
      ((Ipp.Item.attr TAG_URI (ascii "printer-uri") n.str).encode ++
      ((Ipp.Item.attr TAG_NAMEWOLANG (ascii "requesting-user-name") n.usernm).encode ++
      ((Ipp.Item.attr TAG_NAMEWOLANG (ascii "job-name") n.jobnm).encode ++
      ((Ipp.Item.attr TAG_MIMETYPE (ascii "document-format") n.format).encode ++
      [TAG_END_OF_ATTR])))))))))) := by
    simp only [Ipp.Message.header, requestMessage, requestItems, Ipp.encodeItems_cons, be16_eq,
      be32_eq, List.append_assoc, List.singleton_append]
    rfl
  rw [hheader]
  refine (appends_push 1).bind ((appends_push 1).bind ((appends_pushAll _).bind
    ((appends_pushAll _).bind ((appends_push _).bind ?_ (Nat.zero_le _)) (Nat.zero_le _))
    (Nat.zero_le _)) (Nat.zero_le _)) (Nat.zero_le _)
  refine appends_options _ _ _ (appends_options _ _ _ (appends_options _ _ _
    (appends_options _ _ _ (appends_options _ _ _ (appends_options _ _ _ (appends_push _)
    ?_) ?_) ?_) ?_) ?_) ?_
  all_goals
    simp only [List.length_append, List.length_singleton]
    omega

theorem appends_httpHeader (length : ℕ) (printerName : List Byte) :
    Appends (fun hcp : Cursor Byte =>
      hcp.copy 0 (ascii "POST /ipp HTTP/1.1\r\n") >>= fun hcp =>
      hcp.copy 0 (ascii "Content-Length: " ++ decimal length ++ ascii "\r\n") >>= fun hcp =>
      hcp.copy 0 (ascii "Content-Type: application/ipp\r\n") >>= fun hcp =>
      hcp.copy 0 (ascii "Host: " ++ printerName ++ ascii ":" ++ decimal IPP_PORT ++
        ascii "\r\n") >>= fun hcp =>
      hcp.push 13 >>= Cursor.push 10) (httpText length printerName) 0 := by
  refine (appends_copy 0 _).bind ((appends_copy 0 _).bind ((appends_copy 0 _).bind
    ((appends_copy 0 _).bind ((appends_push 13).bind (appends_push 10) ?_) ?_) ?_) ?_) ?_
  all_goals
    simp only [List.length_append, List.length_singleton]
    omega

/-- The IPP header is built if there is room for it. -/
theorem ippHeader_spec (ibuf : ℕ → Byte) (jobid : ℤ) {req : PrintReq} {printerName : List Byte}
    {n : Names} (hn : names printerName req = some n) (data : List Byte) :
    if (requestMessage jobid n data).header.length ≤ IBUFSZ then
      ∃ icp, ippHeader ibuf jobid req printerName = some icp ∧
        icp.text = (requestMessage jobid n data).header
    else ippHeader ibuf jobid req printerName = none := by
  have hrun := (appends_putIppHeader jobid n data).run ⟨IBUFSZ, ibuf⟩
  rw [ippHeader, hn, Option.bind_eq_bind, Option.bind_some]
  rw [Nat.add_zero] at hrun
  split at hrun
  · rename_i hroom
    obtain ⟨icp, hicp, hfilled⟩ := hrun
    rw [if_pos (show _ ≤ IBUFSZ from hroom)]
    exact ⟨icp, hicp, hfilled.text_eq⟩
  · rename_i hroom
    rw [if_neg (show ¬ _ ≤ IBUFSZ from hroom)]
    exact hrun

theorem httpHeader_spec (hbuf : ℕ → Byte) (length : ℕ) (printerName : List Byte) :
    if (httpText length printerName).length ≤ HBUFSZ then
      ∃ hcp, httpHeader hbuf length printerName = some hcp ∧
        hcp.text = httpText length printerName
    else httpHeader hbuf length printerName = none := by
  have hrun := (appends_httpHeader length printerName).run ⟨HBUFSZ, hbuf⟩
  rw [Nat.add_zero] at hrun
  split at hrun
  · rename_i hroom
    obtain ⟨hcp, hhcp, hfilled⟩ := hrun
    rw [if_pos (show _ ≤ HBUFSZ from hroom)]
    exact ⟨hcp, hhcp, hfilled.text_eq⟩
  · rename_i hroom
    rw [if_neg (show ¬ _ ≤ HBUFSZ from hroom)]
    exact hrun

/-- Neither header goes beyond its buffer, the terminating nulls included. -/
def HeadersFit (ibuf hbuf : ℕ → Byte) (jobid : ℤ) (req : PrintReq) (printerName : List Byte)
    (size : ℕ) : Prop :=
  ∃ icp hcp, ippHeader ibuf jobid req printerName = some icp ∧
    httpHeader hbuf (size + icp.text.length + (extra req).length) printerName = some hcp

/-- The length of the string in an array. -/
def strlen (array : List Byte) : ℕ := (array.takeWhile fun b => b != 0).length

theorem length_header (jobid : ℤ) (n : Names) (data : List Byte) :
    (requestMessage jobid n data).header.length =
      149 + n.str.length + n.usernm.length + n.jobnm.length + n.format.length := by
  have hcharset : (ascii "attributes-charset").length = 18 := rfl
  have hutf : (ascii "utf-8").length = 5 := rfl
  have hlanguage : (ascii "attributes-natural-language").length = 27 := rfl
  have hen : (ascii "en-us").length = 5 := rfl
  have huri : (ascii "printer-uri").length = 11 := rfl
  have huser : (ascii "requesting-user-name").length = 20 := rfl
  have hjob : (ascii "job-name").length = 8 := rfl
  have hformat : (ascii "document-format").length = 15 := rfl
  have hnil : (Ipp.encodeItems []).length = 0 := rfl
  have hgroup : (Ipp.Item.group TAG_OPERATION_ATTR).encode.length = 1 := rfl
  simp only [Ipp.Message.header, requestMessage, requestItems, Ipp.encodeItems_cons,
    List.length_cons, List.length_append, Ipp.length_number, length_attr, hgroup, hnil,
    List.length_nil, hcharset, hutf, hlanguage, hen, huri, huser, hjob, hformat]
  omega

theorem length_httpText (length : ℕ) (printerName : List Byte) :
    (httpText length printerName).length =
      83 + (decimal length).length + printerName.length := by
  have hpost : (ascii "POST /ipp HTTP/1.1\r\n").length = 20 := rfl
  have hlength : (ascii "Content-Length: ").length = 16 := rfl
  have htype : (ascii "Content-Type: application/ipp\r\n").length = 31 := rfl
  have hhost : (ascii "Host: ").length = 6 := rfl
  have hcolon : (ascii ":").length = 1 := rfl
  have hport : (decimal IPP_PORT).length = 3 := rfl
  have hend : (ascii "\r\n").length = 2 := rfl
  simp only [httpText, List.length_append, List.length_singleton, hpost, hlength, htype, hhost,
    hcolon, hport, hend]
  omega

theorem names_eq {req : PrintReq} {printerName : List Byte}
    (hname : printerName.length + 11 < STRSZ) (huser : 0 ∈ req.usernm) (hjob : 0 ∈ req.jobnm) :
    names printerName req = some ⟨ascii "http://" ++ printerName ++ ascii "/ipp",
      req.usernm.takeWhile fun b => b != 0, req.jobnm.takeWhile fun b => b != 0,
      documentFormat req⟩ := by
  have hscheme : (ascii "http://").length = 7 := rfl
  have hpath : (ascii "/ipp").length = 4 := rfl
  have hfits : (ascii "http://" ++ printerName ++ ascii "/ipp").length + 1 ≤ STRSZ := by
    simp only [List.length_append, hscheme, hpath]
    omega
  simp only [names, printerUri, if_pos hfits, stringIn, if_pos huser, if_pos hjob,
    Option.bind_eq_bind, Option.bind_some]

theorem length_uri (printerName : List Byte) :
    (ascii "http://" ++ printerName ++ ascii "/ipp").length = printerName.length + 11 := by
  have hscheme : (ascii "http://").length = 7 := rfl
  have hpath : (ascii "/ipp").length = 4 := rfl
  simp only [List.length_append, hscheme, hpath]
  omega

/-- The HTTP header always fits. -/
theorem httpText_fits {length : ℕ} {printerName : List Byte} (hlength : length < 10 ^ 19)
    (hname : printerName.length + 11 < STRSZ) : (httpText length printerName).length ≤ HBUFSZ := by
  have hdigits := length_decimal_le 18 length hlength
  rw [length_httpText]
  unfold STRSZ at hname
  unfold HBUFSZ
  omega

/-- Whether the headers fit, for the strings in them. -/
theorem headersFit_of_names (ibuf hbuf : ℕ → Byte) (jobid : ℤ) {req : PrintReq}
    {printerName : List Byte} {n : Names} {size : ℕ} (hn : names printerName req = some n)
    (hname : printerName.length + 11 < STRSZ) (hsize : size < 2 ^ 63) :
    HeadersFit ibuf hbuf jobid req printerName size ↔
      149 + n.str.length + n.usernm.length + n.jobnm.length + n.format.length ≤ IBUFSZ := by
  have hipp := ippHeader_spec ibuf jobid hn []
  have hlen := length_header jobid n []
  rw [← hlen]
  split at hipp
  · rename_i hroom
    obtain ⟨icp, hicp, htext⟩ := hipp
    refine iff_of_true ?_ hroom
    have hextra : (extra req).length ≤ 1 := by
      unfold extra
      split
      · exact Nat.le_refl 1
      · exact Nat.zero_le 1
    have htotal : size + icp.text.length + (extra req).length < 10 ^ 19 := by
      rw [htext]
      unfold IBUFSZ at hroom
      omega
    have hhttp := httpHeader_spec hbuf (size + icp.text.length + (extra req).length) printerName
    rw [if_pos (httpText_fits htotal hname)] at hhttp
    obtain ⟨hcp, hhcp, -⟩ := hhttp
    exact ⟨icp, hcp, hicp, hhcp⟩
  · rename_i hroom
    refine iff_of_false ?_ hroom
    rintro ⟨icp, hcp, hicp, -⟩
    rw [hipp] at hicp
    cases hicp

/-- The headers of a request with terminated names and a name of the printer that fits in
str fit if and only if the names and the document format are not too long together. -/
theorem headers_fit_iff (ibuf hbuf : ℕ → Byte) (jobid : ℤ) {req : PrintReq}
    {printerName : List Byte} {size : ℕ} (hname : printerName.length + 11 < STRSZ)
    (huser : 0 ∈ req.usernm) (hjob : 0 ∈ req.jobnm) (hsize : size < 2 ^ 63) :
    HeadersFit ibuf hbuf jobid req printerName size ↔
      printerName.length + strlen req.usernm + strlen req.jobnm +
        (documentFormat req).length ≤ 352 := by
  rw [headersFit_of_names ibuf hbuf jobid (names_eq hname huser hjob) hname hsize]
  simp only [length_uri]
  unfold IBUFSZ strlen
  omega

theorem nul_mem_fill {size : ℕ} {text : List Byte} (junk : List Byte) (h : text.length < size) :
    0 ∈ fill size text junk := by
  have hprefix : text ++ [0] <+: fill size text junk := by
    rw [fill, List.append_assoc (text ++ [0])]
    refine List.prefix_take_iff.mpr ⟨List.prefix_append _ _, ?_⟩
    rw [List.length_append, List.length_singleton]
    exact h
  exact hprefix.subset (List.mem_append_right text List.mem_cons_self)

/-- submit_file terminates the names in a request. -/
theorem nul_mem_printReq (user : Option (List Byte)) (fname : List Byte) (nbytes : ℕ) (text : Bool)
    (junk : List Byte) : 0 ∈ (printReq user fname nbytes text junk).usernm ∧
      0 ∈ (printReq user fname nbytes text junk).jobnm := by
  constructor
  · change 0 ∈ userName user junk
    unfold userName
    split
    · exact nul_mem_fill junk (by decide)
    · refine nul_mem_fill [] ?_
      rw [List.length_take]
      unfold USERNM_MAX
      omega
  · change 0 ∈ jobName fname junk
    unfold jobName
    split
    · refine nul_mem_fill junk ?_
      rw [List.length_append, List.length_drop]
      unfold JOBNM_MAX at *
      simp only [List.length_cons, List.length_nil]
      omega
    · exact nul_mem_fill junk (by omega)

/-- The shortest names there are. -/
theorem headers_fit_short : HeadersFit (fun _ => 0) (fun _ => 0) 1
    (printReq none (ascii "a") 1 true []) (ascii "lp") 1 :=
  (headers_fit_iff (fun _ => 0) (fun _ => 0) 1 (by decide) (by decide) (by decide) (by decide)).mpr
    (by decide)

/-- A user and a file with names of all the characters there is room for. -/
theorem headers_overrun : ¬ ∀ (ibuf hbuf : ℕ → Byte) (jobid : ℤ) (user : Option (List Byte))
    (fname : List Byte) (nbytes : ℕ) (text : Bool) (junk printerName : List Byte) (size : ℕ),
    printerName.length + 11 < STRSZ → size < 2 ^ 63 →
    HeadersFit ibuf hbuf jobid (printReq user fname nbytes text junk) printerName size := by
  intro h
  have hfit := h (fun _ => 0) (fun _ => 0) 1 (some (List.replicate 63 117))
    (List.replicate 255 102) 1 false [] (ascii "printer.example") 1 (by decide) (by decide)
  obtain ⟨huser, hjob⟩ := nul_mem_printReq (some (List.replicate 63 117))
    (List.replicate 255 102) 1 false []
  rw [headersFit_of_names _ _ _ (names_eq (by decide) huser hjob) (by decide) (by decide)] at hfit
  revert hfit
  decide +kernel

/-- What is left of the file, what has been sent, and how many bytes less one each of the
next calls moves at most. -/
structure Conn where
  left : List Byte
  cuts : List ℕ
  sent : List Byte

/-- How many of `n` bytes the next call moves. -/
def portion (n : ℕ) : List ℕ → ℕ × List ℕ
  | [] => (n, [])
  | c :: cuts => (min n (c + 1), cuts)

/-- Calls without an error: each moves at least one byte if there are any. -/
def transfer : (c : ClientCall) → Conn → c.Ret × Conn
  | .write bytes, s =>
    (some (portion bytes.length s.cuts).1, { s with
      cuts := (portion bytes.length s.cuts).2
      sent := s.sent ++ bytes.take (portion bytes.length s.cuts).1 })
  | .read nbytes, s =>
    (.ok (s.left.take (portion nbytes s.cuts).1), { s with
      left := s.left.drop (portion nbytes s.cuts).1
      cuts := (portion nbytes s.cuts).2 })
  | .readResp, s => (none, s)

theorem portion_pos {n : ℕ} (hn : 0 < n) (cuts : List ℕ) :
    0 < (portion n cuts).1 ∧ (portion n cuts).1 ≤ n := by
  cases cuts with
  | nil => exact ⟨hn, Nat.le_refl n⟩
  | cons c cuts =>
    simp only [portion]
    omega

theorem portion_one (cuts : List ℕ) : (portion 1 cuts).1 = 1 := by
  obtain ⟨hpos, hle⟩ := portion_pos (Nat.one_pos) cuts
  omega

theorem run_writenLoop {n fuel : ℕ} {bytes : List Byte} (hfuel : bytes.length ≤ fuel)
    (left sent : List Byte) (cuts : List ℕ) :
    ∃ cuts', (Transfers.writenLoop clientWrite n fuel bytes).run transfer ⟨left, cuts, sent⟩ =
      (.ok (n : ℤ), ⟨left, cuts', sent ++ bytes⟩) := by
  induction fuel generalizing bytes sent cuts with
  | zero =>
    obtain rfl := List.length_eq_zero_iff.mp (Nat.le_zero.mp hfuel)
    exact ⟨cuts, by rw [List.append_nil]; rfl⟩
  | succ fuel ih =>
    cases bytes with
    | nil => exact ⟨cuts, by rw [List.append_nil]; rfl⟩
    | cons b bytes =>
      obtain ⟨hpos, hle⟩ := portion_pos (Nat.succ_pos bytes.length) cuts
      obtain ⟨k, hk⟩ := Nat.exists_eq_add_one_of_ne_zero (Nat.ne_of_gt hpos)
      have hrest : ((b :: bytes).drop (k + 1)).length ≤ fuel := by
        rw [List.length_cons] at hfuel
        rw [List.length_drop, List.length_cons]
        omega
      obtain ⟨cuts', hrun⟩ := ih hrest (sent ++ (b :: bytes).take (k + 1))
        (portion (b :: bytes).length cuts).2
      refine ⟨cuts', ?_⟩
      rw [List.append_assoc, List.take_append_drop] at hrun
      have hwrite : (clientWrite (b :: bytes)).run transfer ⟨left, cuts, sent⟩ =
          (.ok (some (k + 1)), ⟨left, (portion (b :: bytes).length cuts).2,
            sent ++ (b :: bytes).take (k + 1)⟩) := by
        rw [← hk]
        rfl
      rw [Transfers.writenLoop, Prog.run_bind, hwrite]
      exact hrun

theorem run_writen (bytes left sent : List Byte) (cuts : List ℕ) :
    ∃ cuts', (writen bytes).run transfer ⟨left, cuts, sent⟩ =
      (.ok (bytes.length : ℤ), ⟨left, cuts', sent ++ bytes⟩) :=
  run_writenLoop (Nat.le_refl _) left sent cuts

/-- The loop sends what is left of the file. -/
theorem run_copyFile {fuel : ℕ} {left : List Byte} (hfuel : left.length < fuel) (sent : List Byte)
    (cuts : List ℕ) : ∃ cuts', (copyFile fuel).run transfer ⟨left, cuts, sent⟩ =
      (.ok true, ⟨[], cuts', sent ++ left⟩) := by
  induction fuel generalizing left sent cuts with
  | zero => exact absurd hfuel (Nat.not_lt_zero _)
  | succ fuel ih =>
    cases left with
    | nil =>
      refine ⟨(portion IOBUFSZ cuts).2, ?_⟩
      rw [copyFile, Prog.run, transfer, List.append_nil]
      simp only [List.take_nil, List.drop_nil]
      rfl
    | cons b left =>
      obtain ⟨hpos, -⟩ := portion_pos (show 0 < IOBUFSZ by decide) cuts
      obtain ⟨k, hk⟩ := Nat.exists_eq_add_one_of_ne_zero (Nat.ne_of_gt hpos)
      obtain ⟨cuts₁, hwrite⟩ := run_writen (b :: left.take k) (left.drop k) sent
        (portion IOBUFSZ cuts).2
      have hrest : (left.drop k).length < fuel := by
        rw [List.length_cons] at hfuel
        rw [List.length_drop]
        omega
      obtain ⟨cuts₂, hrun⟩ := ih hrest (sent ++ b :: left.take k) cuts₁
      refine ⟨cuts₂, ?_⟩
      rw [copyFile, Prog.run, transfer, hk, List.take_succ_cons, List.drop_succ_cons]
      simp only [Prog.run_bind, hwrite, ne_eq, not_true_eq_false, if_false, hrun,
        List.append_assoc, List.cons_append, List.take_append_drop]

theorem run_sendContent {fuel : ℕ} {file : List Byte} (hfuel : file.length < fuel) (req : PrintReq)
    (sent : List Byte) (cuts : List ℕ) :
    ∃ cuts', (sendContent fuel req).run transfer ⟨file, cuts, sent⟩ =
      (.ok true, ⟨[], cuts', sent ++ (extra req ++ file)⟩) := by
  unfold sendContent extra
  split
  · obtain ⟨cuts', hrun⟩ := run_copyFile hfuel (sent ++ [8]) (portion 1 cuts).2
    refine ⟨cuts', ?_⟩
    rw [Prog.run, transfer, List.length_singleton, portion_one]
    rwa [List.append_assoc] at hrun
  · exact run_copyFile hfuel sent cuts

/-- The writev of the headers is not cut short. -/
def WritesHeaders (cuts : List ℕ) : Prop := ∀ c ∈ cuts.head?, HBUFSZ + IBUFSZ ≤ c + 1

theorem requestMessage_ok {jobid : ℤ} {n : Names} (data : List Byte) (hge : -2 ^ 31 ≤ jobid)
    (hlt : jobid < 2 ^ 31) (hroom : (requestMessage jobid n data).header.length ≤ IBUFSZ) :
    (requestMessage jobid n data).Ok := by
  refine ⟨show OP_PRINT_JOB < 2 ^ 16 by decide, hge, hlt, ?_⟩
  rw [length_header] at hroom
  unfold IBUFSZ at hroom
  simp only [requestMessage, requestItems, List.forall_mem_cons]
  refine ⟨⟨by decide, by decide⟩, ⟨by decide, by decide, by decide⟩, ⟨by decide, by decide, by decide⟩,
    ⟨by decide, by decide, by omega⟩, ⟨by decide, by decide, by omega⟩,
    ⟨by decide, by decide, by omega⟩, ⟨by decide, by decide, by omega⟩, nofun⟩

/-- For a job whose headers fit, the content that follows the HTTP header has the length
that the header says, and it is decoded as the request for the job with the file as its
data. -/
theorem request_sent {fuel : ℕ} {ibuf hbuf : ℕ → Byte} {jobid : ℤ} {req : PrintReq}
    {printerName file : List Byte} {cuts : List ℕ} (hge : -2 ^ 31 ≤ jobid) (hlt : jobid < 2 ^ 31)
    (hfit : HeadersFit ibuf hbuf jobid req printerName file.length) (hcuts : WritesHeaders cuts)
    (hfuel : file.length < fuel) :
    ∃ n content cuts', names printerName req = some n ∧
      (sendJob fuel ibuf hbuf jobid req printerName file.length).run transfer ⟨file, cuts, []⟩ =
        (.ok true, ⟨[], cuts', httpText content.length printerName ++ content⟩) ∧
      Ipp.decode content = some (requestMessage jobid n (extra req ++ file)) := by
  obtain ⟨icp, hcp, hicp, hhcp⟩ := hfit
  obtain ⟨n, hn, -⟩ := Option.bind_eq_some_iff.mp hicp
  have hipp := ippHeader_spec ibuf jobid hn (extra req ++ file)
  have hhttp := httpHeader_spec hbuf (file.length + icp.text.length + (extra req).length)
    printerName
  split at hipp
  · rename_i hroom
    obtain ⟨icp', hicp', htext⟩ := hipp
    obtain rfl := Option.some.inj (hicp.symm.trans hicp')
    split at hhttp
    · rename_i hroom'
      obtain ⟨hcp', hhcp', htext'⟩ := hhttp
      obtain rfl := Option.some.inj (hhcp.symm.trans hhcp')
      have hlength : file.length + icp.text.length + (extra req).length =
          (requestMessage jobid n (extra req ++ file)).encode.length := by
        simp only [Ipp.Message.encode, List.length_append, htext, requestMessage]
        omega
      rw [hlength] at htext' hroom'
      have hwhole : (portion (hcp.text ++ icp.text).length cuts).1 =
          (hcp.text ++ icp.text).length := by
        rw [List.length_append, htext, htext']
        cases cuts with
        | nil => rfl
        | cons c cuts =>
          have hc := hcuts c rfl
          exact Nat.min_eq_left (by omega)
      obtain ⟨cuts', hrun⟩ := run_sendContent hfuel req (hcp.text ++ icp.text)
        (portion (hcp.text ++ icp.text).length cuts).2
      refine ⟨n, (requestMessage jobid n (extra req ++ file)).encode, cuts', hn, ?_,
        Ipp.decode_encode (requestMessage_ok _ hge hlt hroom)⟩
      have hsent : hcp.text ++ icp.text ++ (extra req ++ file) =
          httpText (requestMessage jobid n (extra req ++ file)).encode.length printerName ++
            (requestMessage jobid n (extra req ++ file)).encode := by
        rw [htext', Ipp.Message.encode, List.append_assoc, htext]
        rfl
      have htake : (hcp.text ++ icp.text).take (hcp.text.length + icp.text.length) =
          hcp.text ++ icp.text := by
        rw [← List.length_append, List.take_length]
      rw [← hsent, ← hrun]
      rw [List.length_append] at hwhole
      simp only [sendJob, hicp, hhcp, Prog.run, transfer, List.length_append, hwhole, htake, ne_eq,
        not_true_eq_false, if_false, List.nil_append]
    · rw [hhttp] at hhcp
      cases hhcp
  · rw [hipp] at hicp
    cases hicp

/-- A text of three bytes that is read and written byte by byte. -/
theorem request_sent_short : ∃ n content cuts',
    names (ascii "lp") (printReq none (ascii "a") 3 true []) = some n ∧
    (sendJob 4 (fun _ => 0) (fun _ => 0) 1 (printReq none (ascii "a") 3 true []) (ascii "lp")
      (ascii "abc").length).run transfer ⟨ascii "abc", [1023, 0, 0, 0], []⟩ =
      (.ok true, ⟨[], cuts', httpText content.length (ascii "lp") ++ content⟩) ∧
    Ipp.decode content = some (requestMessage 1 n
      (extra (printReq none (ascii "a") 3 true []) ++ ascii "abc")) :=
  request_sent (by decide) (by decide)
    ((headersFit_of_names _ _ _ (names_eq (by decide) (by decide) (by decide)) (by decide)
      (by decide)).mpr (by decide)) (by rintro c ⟨⟩; decide) (by decide)

end Apue.Printer
