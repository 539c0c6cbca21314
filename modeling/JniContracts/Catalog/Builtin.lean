import JniContracts.Rule.Spec

/-!
The built-in catalog: the functions of the Java Native Interface that its rules know, and the rules.
-/

namespace JniContracts.Catalog

def builtinSettings : Settings where
  exceptionChecks := ["ExceptionCheck", "ExceptionOccurred"]
  exceptionClear := ["ExceptionClear"]
  exceptionSafe := ["ExceptionOccurred", "ExceptionDescribe", "ExceptionClear", "ExceptionCheck",
    "ReleaseStringChars", "ReleaseStringUTFChars", "ReleaseStringCritical",
    "ReleaseBooleanArrayElements", "ReleaseByteArrayElements", "ReleaseCharArrayElements",
    "ReleaseShortArrayElements", "ReleaseIntArrayElements", "ReleaseLongArrayElements",
    "ReleaseFloatArrayElements", "ReleaseDoubleArrayElements", "ReleasePrimitiveArrayCritical",
    "DeleteLocalRef", "DeleteGlobalRef", "DeleteWeakGlobalRef", "MonitorExit", "PushLocalFrame",
    "PopLocalFrame", "DetachCurrentThread"]
  exitFunctions := ["exit", "_exit", "_Exit", "abort"]
  nullLiterals := ["NULL", "nullptr", "0"]
  statusOk := ["JNI_OK", "0"]
  interfaceTypes := ["JNIEnv", "JavaVM"]

def lookupFunctions : List String :=
  ["FindClass", "GetMethodID", "CallObjectMethod", "GetObjectClass", "NewStringUTF",
    "CallStaticObjectMethod", "GetByteArrayElements", "GetStringUTFChars", "GetFieldID"]

def referenceFunctions : List String :=
  ["CallObjectMethod", "NewStringUTF", "FindClass", "CallStaticObjectMethod", "GetObjectClass",
    "NewObject", "NewObjectArray", "GetObjectField", "GetObjectArrayElement"]

def exceptionCheck : Rule where
  id := "jni-exception-check-required"
  kind := .exceptionCheck
  message :=
    "Missing exception check after calling '$JNI_FUNC'. Ensure to handle exceptions " ++
      "properly after JNI calls."
  pattern := some "(*$ENV)->$JNI_FUNC($ENV, ...)"
  metavariableIn := [("JNI_FUNC", lookupFunctions)]

def nullCheck : Rule where
  id := "jni-null-check-required"
  kind := .nullCheck
  message :=
    "Missing NULL check for '$VAR' after calling '$JNI_FUNC'. Ensure to check the result " ++
      "for NULL before proceeding."
  pattern := some "$VAR = (*$ENV)->$JNI_FUNC($ENV, ...)"
  metavariableIn := [("JNI_FUNC", lookupFunctions)]

def deleteLocalRef : Rule where
  id := "jni-delete-local-ref-required"
  kind := .release
  message :=
    "Missing DeleteLocalRef for '$VAR'. Make sure to free local references to avoid " ++
      "memory leaks."
  pattern := some "$VAR = (*$ENV)->$JNI_FUNC($ENV, ...)"
  metavariableIn := [("JNI_FUNC", referenceFunctions)]
  requires := ["(*$ENV)->DeleteLocalRef($ENV, $VAR)"]

def deleteGlobalRef : Rule where
  id := "jni-delete-global-ref-required"
  kind := .release
  message :=
    "Missing DeleteGlobalRef for '$VAR'. Ensure to free global references after usage to " ++
      "prevent memory leaks."
  pattern := some "$VAR = (*$ENV)->NewGlobalRef($ENV, ...)"
  requires := ["(*$ENV)->DeleteGlobalRef($ENV, $VAR)"]

def arrayLengthCheck : Rule where
  id := "jni-check-getarraylength-exception"
  kind := .exceptionCheck
  message := "Ensure to handle JNI exceptions after calling GetArrayLength."
  pattern := some "(*$ENV)->GetArrayLength($ENV, $ARRAY)"
  handler := .clearAndExit

def releaseByteArray : Rule where
  id := "jni-release-byte-array-required"
  kind := .release
  message :=
    "Ensure ReleaseByteArrayElements is called in all paths after GetByteArrayElements to " ++
      "prevent memory leaks."
  pattern := some "$VAR = (*$ENV)->GetByteArrayElements($ENV, $ARRAY, ...)"
  requires := ["(*$ENV)->ReleaseByteArrayElements($ENV, ..., $VAR, ...)"]

def releaseStringUtf : Rule where
  id := "jni-release-string-utf-required"
  kind := .release
  message :=
    "Missing ReleaseStringUTFChars after GetStringUTFChars. Ensure proper JNI resource " ++
      "handling."
  pattern := some "$VAR = (*$ENV)->GetStringUTFChars($ENV, $STRING, ...)"
  requires := ["(*$ENV)->ReleaseStringUTFChars($ENV, ..., $VAR)"]

def loopExceptions : Rule where
  id := "jni-exception-handling-in-loop"
  kind := .loopException
  severity := .error
  message :=
    "Missing exception handling for JNI call in loop. Ensure exceptions are handled " ++
      "properly to avoid issues on low-end devices."
  pattern := some "(*$ENV)->$FUNC($ENV, ...)"

def loopCalls : Rule where
  id := "repeated-jni-calls-in-loop"
  kind := .loopInvariant
  severity := .advisory
  message :=
    "Repeated JNI calls in a loop can degrade performance. Consider caching results to " ++
      "avoid repeated JNI calls in tight loops."
  pattern := some "(*$ENV)->$FUNC($ENV, ...)"

def releaseArrayElements : Rule where
  id := "jni-release-array-elements-required"
  kind := .release
  message :=
    "JNI array elements obtained via $TYPEArrayElements must be released using " ++
      "Release$TYPEArrayElements to avoid memory leaks."
  pattern := some "$VAR = (*$ENV)->Get$TYPEArrayElements($ENV, ...)"
  metavariableNotIn := [("TYPE", ["Byte"])]
  requires := ["(*$ENV)->Release$TYPEArrayElements($ENV, ..., $VAR, ...)"]

def directBufferCheck : Rule where
  id := "jni-check-directbuffer-pointers"
  kind := .nullCheck
  message :=
    "Check if the buffer obtained from GetDirectBufferAddress() is NULL before usage to " ++
      "prevent segmentation faults."
  pattern := some "$VAR = (*$ENV)->GetDirectBufferAddress($ENV, ...)"

def threadAttachDetachPairing : Rule where
  id := "jni-thread-attach-detach-pairing"
  kind := .release
  message :=
    "Threads attached using AttachCurrentThread should always be detached using " ++
      "DetachCurrentThread to prevent memory leaks."
  patternEither := ["(*$JVM)->AttachCurrentThread($JVM, ...)",
    "(*$JVM)->AttachCurrentThreadAsDaemon($JVM, ...)"]
  requires := ["(*$JVM)->DetachCurrentThread($JVM)"]
  nullGuard := false
  statusGuard := true

def releaseStringChars : Rule where
  id := "jni-release-string-chars-required"
  kind := .release
  message :=
    "Missing ReleaseStringChars for '$VAR' after GetStringChars. Ensure proper JNI " ++
      "resource handling."
  pattern := some "$VAR = (*$ENV)->GetStringChars($ENV, $STRING, ...)"
  requires := ["(*$ENV)->ReleaseStringChars($ENV, ..., $VAR)"]

def releaseStringCritical : Rule where
  id := "jni-release-string-critical-required"
  kind := .release
  message :=
    "Missing ReleaseStringCritical for '$VAR'. Critical regions must be closed on every " ++
      "path."
  pattern := some "$VAR = (*$ENV)->GetStringCritical($ENV, $STRING, ...)"
  requires := ["(*$ENV)->ReleaseStringCritical($ENV, ..., $VAR)"]

def releasePrimitiveArrayCritical : Rule where
  id := "jni-release-primitive-array-critical-required"
  kind := .release
  message :=
    "Missing ReleasePrimitiveArrayCritical for '$VAR'. Critical regions must be closed on " ++
      "every path."
  pattern := some "$VAR = (*$ENV)->GetPrimitiveArrayCritical($ENV, $ARRAY, ...)"
  requires := ["(*$ENV)->ReleasePrimitiveArrayCritical($ENV, ..., $VAR, ...)"]

def monitorEnterExitPairing : Rule where
  id := "jni-monitor-enter-exit-pairing"
  kind := .release
  message :=
    "MonitorEnter on '$OBJ' must be matched by MonitorExit on every path to avoid " ++
      "deadlocks."
  pattern := some "(*$ENV)->MonitorEnter($ENV, $OBJ)"
  requires := ["(*$ENV)->MonitorExit($ENV, $OBJ)"]
  nullGuard := false
  statusGuard := true

def builtinRules : List Rule :=
  [exceptionCheck, nullCheck, deleteLocalRef, deleteGlobalRef, arrayLengthCheck, releaseByteArray,
    releaseStringUtf, loopExceptions, loopCalls, releaseArrayElements, directBufferCheck,
    threadAttachDetachPairing, releaseStringChars, releaseStringCritical,
    releasePrimitiveArrayCritical, monitorEnterExitPairing]

end JniContracts.Catalog
