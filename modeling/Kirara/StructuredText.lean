import Kirara.Fences
import Kirara.TextSplitting

namespace Kirara.StructuredText

open Kirara.CodePoints Kirara.Fences Kirara.TextSplitting

/-- The fences of code: those of Markdown, or the brackets of WeCom. -/
inductive CodeStyle where
  | markdown
  | wecom
  deriving DecidableEq, Repr

def wecomOpening : Str := lit "［代码"

def wecomClosing : Str := lit "［/代码］"

def codeFenceOpen (line : Str) : CodeStyle → Option Str
  | .markdown => fenceMarker line
  | .wecom => if startsWith (stripLineEnd line) wecomOpening then some wecomOpening else none

def codeFenceCloses (line opening : Str) : CodeStyle → Bool
  | .markdown => closesFence line opening
  | .wecom => stripLineEnd line == wecomClosing

def tooSmallForFence : Str := lit "消息上限太小，无法保留完整代码围栏"

def tooSmallForTable : Str := lit "消息上限太小，无法保留完整表格边框"

def tooSmallForLabel : Str := lit "消息上限太小，无法容纳页码和正文"

def rowNotice : Str := lit "表格行（单元格过长，已折行）：\n"

def topCorner : Str := lit "┌"

def bottomCorner : Str := lit "└"

variable (m : Measure) (limit : Nat) (style : CodeStyle)

/-- The opener and the closer of a block that has both, and the lines between. -/
def fencedParts (block : Str) : Option (Str × Str × Str) :=
  match splitLines block with
  | first :: second :: rest =>
    let last := (second :: rest).getLast (List.cons_ne_nil _ _)
    match codeFenceOpen first style with
    | none => none
    | some opening =>
      if codeFenceCloses last opening style then
        some (stripLineEnd first, ((second :: rest).dropLast).flatten, stripLineEnd last)
      else none
  | _ => none

def splitCodeBlock (block : Str) : Except Str (List Str) :=
  match fencedParts style block with
  | none => splitTextPreserving m limit block
  | some (opener, content, closer) =>
    let overhead := m.of (opener ++ [newline]) + m.of closer + m.of [newline]
    if limit ≤ overhead then .error tooSmallForFence
    else
      (splitTextPreserving m (limit - overhead) content).map (fun parts =>
        parts.map (fun part => opener ++ [newline] ++ part ++ [newline] ++ closer))

def closePage (header : List Str) (footer : Str) (pages current : List Str) : List Str :=
  if header.length < current.length then pages ++ [join [newline] (current ++ [footer])] else pages

/-- The rows of a table in pages; `current` is the header with this page's rows. -/
def addRows (header : List Str) (footer : Str) :
    List Str → List Str → List Str → Except Str (List Str)
  | [], pages, current =>
    .ok (if header.length < current.length || pages.isEmpty then
      pages ++ [join [newline] (current ++ [footer])] else pages)
  | row :: rows, pages, current =>
    if m.of (join [newline] (current ++ [row, footer])) ≤ limit then
      addRows header footer rows pages (current ++ [row])
    else if m.of (join [newline] (header ++ [row, footer])) ≤ limit then
      addRows header footer rows (closePage header footer pages current) (header ++ [row])
    else
      match splitTextPreserving m limit (rowNotice ++ row) with
      | .error e => .error e
      | .ok parts =>
        addRows header footer rows (closePage header footer pages current ++ parts) header

def splitBoxTable (lines : List Str) : Except Str (List Str) :=
  if lines.length < 4 then splitTextPreserving m limit (join [newline] lines)
  else
    let header := lines.take 3
    let footer := lines.getLastD []
    if limit < m.of (join [newline] (header ++ [footer])) then .error tooSmallForTable
    else addRows m limit header footer (lines.drop 3).dropLast [] header

def backfillChunks (chunks : List Str) : List Str :=
  (chunks.foldl (fun merged chunk =>
    match merged with
    | [] => [chunk]
    | last :: earlier =>
      let candidate := last ++ [newline, newline] ++ chunk
      if m.of candidate ≤ limit then candidate :: earlier else chunk :: last :: earlier)
    []).reverse

inductive Segment where
  | prose (text : Str)
  | code (block : Str)
  | table (lines : List Str)
  deriving DecidableEq

/-- What the scan of the lines is in the middle of, with the lines read of it. -/
inductive Scanning where
  | regular (lines : List Str)
  | code (opening : Str) (lines : List Str)
  | table (lines : List Str)

def flushRegular (lines : List Str) : List Segment :=
  if lines.isEmpty then [] else [.prose lines.flatten]

/-- Each segment as `_split_structured_body` hands it to a splitter. -/
def segments : List Str → Scanning → List Segment
  | [], .regular acc => flushRegular acc
  | [], .code _ acc => [.code acc.flatten]
  | [], .table acc => [.table acc]
  | line :: lines, .regular acc =>
    match codeFenceOpen line style with
    | some opening => flushRegular acc ++ segments lines (.code opening [line])
    | none =>
      if startsWith (stripLineEnd line) topCorner then
        flushRegular acc ++ segments lines (.table [stripLineEnd line])
      else segments lines (.regular (acc ++ [line]))
  | line :: lines, .code opening acc =>
    if codeFenceCloses line opening style then
      .code (acc ++ [line]).flatten :: segments lines (.regular [])
    else segments lines (.code opening (acc ++ [line]))
  | line :: lines, .table acc =>
    if startsWith (stripLineEnd line) bottomCorner then
      .table (acc ++ [stripLineEnd line]) :: segments lines (.regular [])
    else segments lines (.table (acc ++ [stripLineEnd line]))

def splitSegment : Segment → Except Str (List Str)
  | .prose text => splitTextPreserving m limit text
  | .code block => splitCodeBlock m limit style block
  | .table lines => splitBoxTable m limit lines

def splitSegments : List Segment → Except Str (List Str)
  | [] => .ok []
  | s :: rest =>
    match splitSegment m limit style s with
    | .error e => .error e
    | .ok chunks => (splitSegments rest).map (chunks ++ ·)

def splitStructuredBody (text : Str) : Except Str (List Str) :=
  if (splitLines text).isEmpty then .ok [text]
  else
    (splitSegments m limit style (segments style (splitLines text) (.regular []))).map
      (fun chunks => if chunks.isEmpty then [[]] else backfillChunks m limit chunks)

def pageLabel (page total : Nat) : Str :=
  lit "第 " ++ digits page ++ lit " 页 / 共 " ++ digits total ++ lit " 页\n"

def labelSize (m : Measure) (total : Nat) : Nat :=
  ((List.range total).map (fun i => m.of (pageLabel (i + 1) total))).foldr max 0

def numberPages (chunks : List Str) : List Str :=
  chunks.zipIdx.map (fun p => pageLabel (p.2 + 1) chunks.length ++ p.1)

structure Limits where
  maxBytes : Option Nat
  maxLength : Option Nat
  maxPages : Nat
  maxTotalBytes : Option Nat

def tooManyPages (maxPages : Nat) : Str :=
  lit "回复内容超过页数上限（" ++ digits maxPages ++ lit " 页）"

def tooManyBytes (maxTotalBytes : Nat) : Str :=
  lit "回复内容超过总字节上限（" ++ digits maxTotalBytes ++ lit " bytes）"

def tooManyPageBytes (maxTotalBytes : Nat) : Str :=
  lit "分页后的回复超过总字节上限（" ++ digits maxTotalBytes ++ lit " bytes）"

def unstablePages : Str := lit "无法在指定消息上限内稳定计算页数"

/-- The text of a `UnicodeEncodeError`, less the place of the character. -/
def notEncodable : Str := lit "'utf-8' codec can't encode character: surrogates not allowed"

/-- The rounds of the page count, with labels for the pages of the round before. -/
def stableChunks (m : Measure) (limit : Nat) (style : CodeStyle) (maxPages : Nat) (text : Str) :
    Nat → Nat → Except Str (List Str)
  | 0, _ => .error unstablePages
  | n + 1, total =>
    if limit ≤ labelSize m total then .error tooSmallForLabel
    else
      match splitStructuredBody m (limit - labelSize m total) style text with
      | .error e => .error e
      | .ok chunks =>
        if maxPages < chunks.length then .error (tooManyPages maxPages)
        else if chunks.length = total then .ok chunks
        else stableChunks m limit style maxPages text n chunks.length

def finishPages (m : Measure) (limit : Nat) (style : CodeStyle) (maxPages : Nat) (text : Str)
    (chunks : List Str) : Except Str (List Str) :=
  if (numberPages chunks).any (fun page => limit < m.of page) then
    match splitStructuredBody m (limit - labelSize m chunks.length) style text with
    | .error e => .error e
    | .ok again =>
      if maxPages < again.length then .error (tooManyPages maxPages) else .ok (numberPages again)
  else .ok (numberPages chunks)

def totalBytes (pages : List Str) : Nat := (pages.map Measure.utf8.of).sum

def Limits.measure (l : Limits) : Option (Measure × Nat) :=
  match l.maxBytes, l.maxLength with
  | some limit, none => some (.utf8, limit)
  | none, some limit => some (.characters, limit)
  | _, _ => none

def exceeds (maxTotalBytes : Option Nat) (bytes : Nat) : Option Nat :=
  maxTotalBytes.filter (fun most => most < bytes)

def splitWithin (l : Limits) (style : CodeStyle) (text : Str) (m : Measure) (limit : Nat) :
    Except Str (List Str) :=
  if m.of text ≤ limit then .ok [text]
  else
    match (stableChunks m limit style l.maxPages text 12 1).bind
      (finishPages m limit style l.maxPages text) with
    | .error e => .error e
    | .ok result =>
      match exceeds l.maxTotalBytes (totalBytes result) with
      | some most => .error (tooManyPageBytes most)
      | none => .ok result

def splitStructuredText (l : Limits) (style : CodeStyle) (text : Str) : Except Str (List Str) :=
  match l.measure with
  | none => .error (lit "必须且只能指定 max_bytes 或 max_length")
  | some (m, limit) =>
    if limit = 0 then .error (lit "消息上限必须大于 0")
    else if l.maxPages = 0 then .error (lit "max_pages 必须大于 0")
    else if l.maxTotalBytes = some 0 then .error (lit "max_total_bytes 必须大于 0")
    else if (l.maxTotalBytes.isSome || m = .utf8) && text.any isSurrogate then .error notEncodable
    else
      match exceeds l.maxTotalBytes (Measure.utf8.of text) with
      | some most => .error (tooManyBytes most)
      | none => splitWithin l style text m limit

def truncationNotice : Str :=
  lit "\n\n（内容过长，已截断；请缩小提问范围或分次获取剩余部分。）"

def contains (part : Str) : Str → Bool
  | [] => part.isEmpty
  | t@(_ :: rest) => part.isPrefixOf t || contains part rest

/-- The errors after which a text is cut short: not those of the settings. -/
def overBudget (error : Str) : Bool :=
  contains (lit "上限") error && !contains (lit "太小") error && !contains (lit "必须") error

def bisect (paginate : Str → Except Str (List Str)) (text : Str) :
    Nat → Nat → Nat → Option (List Str) → Option (List Str)
  | 0, _, _, best => best
  | n + 1, low, high, best =>
    if low < high then
      let middle := (low + high + 1) / 2
      match paginate (text.take middle ++ truncationNotice) with
      | .error _ => bisect paginate text n low (middle - 1) best
      | .ok pages => bisect paginate text n middle high (some pages)
    else best

def stripped (t : Str) : Str := (t.dropWhile isSpace).rdropWhile isSpace

def cutNotice (m : Measure) (limit : Nat) : Nat → Str → Str
  | 0, notice => notice
  | n + 1, notice =>
    if notice ≠ [] ∧ limit < m.of notice then cutNotice m limit n notice.dropLast else notice

def fallbackNotice (m : Measure) (limit : Nat) : Str :=
  cutNotice m limit (stripped truncationNotice).length (stripped truncationNotice)

def truncated (l : Limits) (style : CodeStyle) (text : Str) (m : Measure) (limit : Nat) :
    List Str :=
  match bisect (splitStructuredText l style) text text.length 0 text.length none with
  | some pages => pages
  | none => if fallbackNotice m limit = [] then [] else [fallbackNotice m limit]

def paginateWithTruncationNotice (l : Limits) (style : CodeStyle) (text : Str) :
    Except Str (List Str × Bool) :=
  match splitStructuredText l style text with
  | .ok pages => .ok (pages, false)
  | .error e =>
    if overBudget e then
      match l.measure with
      | none => .error e
      | some (m, limit) => .ok (truncated l style text m limit, true)
    else .error e

end Kirara.StructuredText
