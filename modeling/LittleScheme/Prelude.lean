/-!
# The prelude

Library procedures written in the language itself. They are defined in every standard environment,
in this order.
-/
namespace LittleScheme.Prelude

/-- The first part of the first part of a pair. -/
def caar : String :=
  "(define (caar x) (car (car x)))"

/-- The second element of a list. -/
def cadr : String :=
  "(define (cadr x) (car (cdr x)))"

/-- The rest of the first element. -/
def cdar : String :=
  "(define (cdar x) (cdr (car x)))"

/-- A list without its first two elements. -/
def cddr : String :=
  "(define (cddr x) (cdr (cdr x)))"

/-- The third element of a list. -/
def caddr : String :=
  "(define (caddr x) (car (cdr (cdr x))))"

/-- Combine the elements with an accumulator from left to right. -/
def foldl : String :=
  "(define (foldl f acc xs)
  (if (null? xs)
      acc
      (foldl f (f (car xs) acc) (cdr xs))))"

/-- Combine the elements with an accumulator from right to left. -/
def foldr : String :=
  "(define (foldr f acc xs)
  (foldl f acc (reverse xs)))"

/-- Combine the elements, starting from the first. -/
def reduce : String :=
  "(define (reduce f initial xs)
  (if (null? xs)
      initial
      (foldl f (car xs) (cdr xs))))"

/-- One of the lists is empty. -/
def mapAnyNull : String :=
  "(define (map-any-null? lists)
  (cond ((null? lists) #f)
        ((null? (car lists)) #t)
        (else (map-any-null? (cdr lists)))))"

/-- The first elements of some lists. -/
def mapCars : String :=
  "(define (map-cars lists)
  (if (null? lists) '() (cons (caar lists) (map-cars (cdr lists)))))"

/-- Some lists without their first elements. -/
def mapCdrs : String :=
  "(define (map-cdrs lists)
  (if (null? lists) '() (cons (cdar lists) (map-cdrs (cdr lists)))))"

/-- The results of a procedure on the elements of some lists, up to the end of the shortest. -/
def map : String :=
  "(define (map f xs . more)
  (let loop ((lists (cons xs more)) (acc '()))
    (if (map-any-null? lists)
        (reverse acc)
        (loop (map-cdrs lists) (cons (apply f (map-cars lists)) acc)))))"

/-- Call a procedure for its effects. -/
def forEach : String :=
  "(define (for-each f xs . more)
  (apply map f xs more)
  (if #f #f))"

/-- The elements that a predicate keeps. -/
def filter : String :=
  "(define (filter keep? xs)
  (let loop ((xs xs) (acc '()))
    (cond ((null? xs) (reverse acc))
          ((keep? (car xs)) (loop (cdr xs) (cons (car xs) acc)))
          (else (loop (cdr xs) acc)))))"

/-- The entry of an association list with the very same key. -/
def assq : String :=
  "(define (assq key alist)
  (cond ((null? alist) #f)
        ((eq? key (caar alist)) (car alist))
        (else (assq key (cdr alist)))))"

/-- The entry of an association list with the same key. -/
def assv : String :=
  "(define (assv key alist)
  (cond ((null? alist) #f)
        ((eqv? key (caar alist)) (car alist))
        (else (assv key (cdr alist)))))"

/-- The entry of an association list with an equal key. -/
def assoc : String :=
  "(define (assoc key alist)
  (cond ((null? alist) #f)
        ((equal? key (caar alist)) (car alist))
        (else (assoc key (cdr alist)))))"

/-- The part of a list from an element on. -/
def memq : String :=
  "(define (memq x xs)
  (cond ((null? xs) #f)
        ((eq? x (car xs)) xs)
        (else (memq x (cdr xs)))))"

/-- The part of a list from an equal element on. -/
def member : String :=
  "(define (member x xs)
  (cond ((null? xs) #f)
        ((equal? x (car xs)) xs)
        (else (member x (cdr xs)))))"

/-- An element of a list by its position. -/
def listRef : String :=
  "(define (list-ref xs k)
  (car (list-tail xs k)))"

/-- So many numbers, from a start by a step. -/
def iota : String :=
  "(define (iota count . options)
  (let ((start (if (null? options) 0 (car options)))
        (step (if (or (null? options) (null? (cdr options))) 1 (cadr options))))
    (let loop ((i (- count 1)) (acc '()))
      (if (< i 0)
          acc
          (loop (- i 1) (cons (+ start (* i step)) acc))))))"

/-- The definitions of the prelude. -/
def definitions : List String :=
  [caar, cadr, cdar, cddr, caddr, foldl, foldr, reduce, mapAnyNull, mapCars, mapCdrs, map, forEach,
  filter, assq, assv, assoc, memq, member, listRef, iota]

end LittleScheme.Prelude
